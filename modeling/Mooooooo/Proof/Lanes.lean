import Mooooooo.Lib.Bytes
import Mooooooo.Proof.Registers

/-!
# Accesses of less than a word

`GICD_IPRIORITYR` and `GICD_ITARGETSR` have a byte for each interrupt, and the guest
accesses them by bytes, halfwords and words. The callbacks divide the offset by four and do
not look at the size of the access.

* `lanes_are_words`: **each word of the two registers is one cell**: an access of any size at
  any of its four addresses reads or writes all of it. A read at the address of the last
  write to the word, and no wider, has the last bytes written.
* `byte_lanes_fail`: a byte of the word is not read at its own address.
-/

namespace Mooooooo

/-! ## Writes and the bytes they cover -/

/-- A write with its size in bytes. -/
structure LaneWrite where
  addr : ℕ
  size : ℕ
  data : BitVec 64

/-- The word that a write is in. -/
def LaneWrite.word (w : LaneWrite) : ℕ × LaneWrite := (w.addr / 4 * 4, w)

@[simp] theorem LaneWrite.word_fst (w : LaneWrite) : w.word.1 = w.addr / 4 * 4 := rfl

/-- The bytes that a write covers. -/
def LaneWrite.bytes (w : LaneWrite) : List (ℕ × BitVec 8) :=
  (List.range w.size).map fun k => (w.addr + k, Bytes.byte w.data k)

/-- A byte, a halfword or a word, at a multiple of its size. -/
def NaturallyAligned (addr size : ℕ) : Prop := (size = 1 ∨ size = 2 ∨ size = 4) ∧ size ∣ addr

theorem NaturallyAligned.word {addr size : ℕ} (h : NaturallyAligned addr size) {k : ℕ} (hk : k < size) :
    (addr + k) / 4 = addr / 4 := by
  obtain ⟨hsize, m, rfl⟩ := h
  rcases hsize with rfl | rfl | rfl
  · omega
  · omega
  · omega

theorem lastWrite_bytes (w : LaneWrite) (b : ℕ) : lastWrite w.bytes b =
    if w.addr ≤ b ∧ b < w.addr + w.size then some (Bytes.byte w.data (b - w.addr)) else none := by
  obtain ⟨addr, size, data⟩ := w
  unfold LaneWrite.bytes
  dsimp only
  induction size with
  | zero =>
    rw [if_neg (by omega)]
    rfl
  | succ n ih =>
    rw [List.range_succ, List.map_append, List.map_singleton, lastWrite_concat, ih]
    dsimp only
    by_cases hb : addr + n = b
    · rw [if_pos hb, if_pos (by omega), ← hb, Nat.add_sub_cancel_left]
    · rw [if_neg hb]
      by_cases hin : addr ≤ b ∧ b < addr + n
      · rw [if_pos hin, if_pos (by omega)]
      · rw [if_neg hin, if_neg (by omega)]

/-- **The last bytes are those of the last write to the word**, where that was at the
address and covers them. -/
theorem lastWrite_lane {ws : List LaneWrite} (hws : ∀ w ∈ ws, NaturallyAligned w.addr w.size) {addr size k : ℕ}
    (ha : NaturallyAligned addr size) (hk : k < size)
    (hlast : ∀ w, lastWrite (ws.map LaneWrite.word) (addr / 4 * 4) = some w → w.addr = addr ∧ size ≤ w.size) :
    lastWrite (ws.flatMap LaneWrite.bytes) (addr + k) =
      (lastWrite (ws.map LaneWrite.word) (addr / 4 * 4)).map fun w => Bytes.byte w.data k := by
  induction ws using List.reverseRecOn with
  | nil => rfl
  | append_singleton ws w ih =>
    rw [List.map_append, List.map_singleton, lastWrite_concat] at hlast ⊢
    rw [List.flatMap_append, List.flatMap_singleton, lastWrite_append, lastWrite_bytes]
    by_cases hword : w.word.1 = addr / 4 * 4
    · rw [if_pos hword] at hlast ⊢
      obtain ⟨haddr, hsize⟩ := hlast w rfl
      rw [if_pos (by omega), haddr, Nat.add_sub_cancel_left]
      rfl
    · rw [if_neg hword] at hlast ⊢
      -- a write to another word covers none of these bytes
      have houtside : ¬(w.addr ≤ addr + k ∧ addr + k < w.addr + w.size) := by
        rintro ⟨hlo, hhi⟩
        have hw := (hws w (by simp)).word (k := addr + k - w.addr) (by omega)
        have haddr := ha.word hk
        have hsum : w.addr + (addr + k - w.addr) = addr + k := by omega
        rw [hsum, haddr] at hw
        exact hword (by rw [LaneWrite.word_fst, hw])
      rw [if_neg houtside, Option.none_or]
      exact ih (fun v hv => hws v (List.mem_append_left _ hv)) hlast

/-! ## The two registers -/

/-- The addresses of `GICD_IPRIORITYR` and `GICD_ITARGETSR`. -/
def InLanes (addr : BitVec 64) : Prop := InField GicdField.ipriorityr addr ∨ InField GicdField.itargetsr addr

instance (addr : BitVec 64) : Decidable (InLanes addr) := inferInstanceAs (Decidable (_ ∨ _))

theorem inLanes_iff (addr : BitVec 64) : InLanes addr ↔
    0x400 ≤ addr.toNat ∧ addr.toNat < 0x7FC ∨ 0x800 ≤ addr.toNat ∧ addr.toNat < 0xBFC := by
  have hbounds : fieldOffset GicdField.ipriorityr = 0x400 ∧ fieldSize GicdField.ipriorityr = 0x3FC ∧
      fieldOffset GicdField.itargetsr = 0x800 ∧ fieldSize GicdField.itargetsr = 0x3FC := by decide
  obtain ⟨h1, h2, h3, h4⟩ := hbounds
  unfold InLanes InField
  rw [h1, h2, h3, h4]

/-- All addresses of a word are in the two registers, or none. -/
theorem inLanes_word {addr addr' : BitVec 64} (h : addr.toNat / 4 * 4 = addr'.toNat / 4 * 4) :
    InLanes addr ↔ InLanes addr' := by
  rw [inLanes_iff, inLanes_iff]
  omega

/-- Each address of the two registers is dispatched. -/
theorem InLanes.decode {addr : BitVec 64} (h : InLanes addr) : (gicdWindow.decode addr.toNat).isSome := by
  rw [Window.decode_isSome]
  have hpriority : caseRow gicdIpriorityr gicdIpriorityrEnd gicdIpriorityr GicdField.ipriorityr ∈ gicdWindow := by
    simp [gicdWindow]
  have htargets : caseRow gicdItargetsr gicdItargetsrEnd gicdItargetsr GicdField.itargetsr ∈ gicdWindow := by
    simp [gicdWindow]
  rcases (inLanes_iff addr).1 h with hin | hin
  · exact ⟨_, hpriority, hin⟩
  · exact ⟨_, htargets, hin⟩

/-- It goes to the word that it lies in. -/
theorem InLanes.cell {addr : BitVec 64} (h : InLanes addr) :
    ∃ c, gicdCell addr = some c ∧ fieldOffset c.1 + 4 * c.2 = addr.toNat / 4 * 4 := by
  obtain ⟨c, hc⟩ := Option.isSome_iff_exists.1 h.decode
  obtain ⟨r, hr, hholds, rfl⟩ := Window.decode_row hc
  exact ⟨_, hc, (gicdWindow_fits r hr).index_word hholds⟩

theorem InLanes.read {addr : BitVec 64} (h : InLanes addr) (regs : GicdRegs) :
    regs.read addr = (regs.words (addr.toNat / 4 * 4)).setWidth 64 := by
  have hbounds := (inLanes_iff addr).1 h
  have htyper : addr ≠ gicdTyper := by
    rintro rfl
    exact absurd hbounds (by decide)
  have hiidr : addr ≠ gicdIidr := by
    rintro rfl
    exact absurd hbounds (by decide)
  obtain ⟨c, hc, hoff⟩ := h.cell
  rw [gicdRead_eq, if_neg htyper, if_neg hiidr, hc, fetch_some]
  unfold Bank.get
  rw [hoff]

theorem InLanes.write {addr : BitVec 64} (h : InLanes addr) (regs : GicdRegs) (data : BitVec 64) :
    regs.write addr data = ⟨Function.update regs.words (addr.toNat / 4 * 4) (data.setWidth 32)⟩ := by
  obtain ⟨c, hc, hoff⟩ := h.cell
  rw [gicdWrite_eq, hc, put_some]
  unfold Bank.set
  rw [hoff]

/-! ## Runs -/

/-- The address and the size of a distributor access. -/
def GicEvent.gicdAccess (e : GicEvent) : Option (BitVec 64 × BitVec 32) :=
  match e.op with
  | .access (.gicdRead addr size) | .access (.gicdWrite addr _ size) => some (addr, size)
  | _ => none

/-- The accesses of a run to the two registers are naturally aligned. -/
def LanesAligned (es : List GicEvent) : Prop :=
  ∀ e ∈ es, ∀ x ∈ e.gicdAccess, InLanes x.1 → NaturallyAligned x.1.toNat x.2.toNat

/-- What core `c` wrote to the two registers. -/
def laneWrites (c : Core) (es : List GicEvent) : List LaneWrite := es.filterMap fun e =>
  match e.op with
  | .access (.gicdWrite addr data size) =>
    if e.core = c ∧ InLanes addr then some ⟨addr.toNat, size.toNat, data⟩ else none
  | _ => none

/-- What core `c` last wrote in the word that an address lies in. -/
def lastInWord (c : Core) (es : List GicEvent) (addr : BitVec 64) : Option LaneWrite :=
  lastWrite ((laneWrites c es).map LaneWrite.word) (addr.toNat / 4 * 4)

/-- The byte that core `c` last wrote at an address. -/
def lastByte (c : Core) (es : List GicEvent) (b : ℕ) : Option (BitVec 8) :=
  lastWrite ((laneWrites c es).flatMap LaneWrite.bytes) b

/-- What an event writes to the distributor, and of that to the two registers. -/
theorem writes_cases (c : Core) (e : GicEvent) : gicdWrites c [e] = [] ∧ laneWrites c [e] = [] ∨
    ∃ addr data size, e = ⟨c, .access (.gicdWrite addr data size)⟩ ∧ gicdWrites c [e] = [(addr.toNat, data)] ∧
      laneWrites c [e] = if InLanes addr then [⟨addr.toNat, size.toNat, data⟩] else [] := by
  obtain ⟨c', op⟩ := e
  rcases op with (_ | ⟨addr, data, size⟩ | _ | _) | _
  · exact .inl ⟨rfl, rfl⟩
  · by_cases hc : c' = c
    · subst hc
      refine .inr ⟨addr, data, size, rfl, ?_, ?_⟩
      · simp [gicdWrites]
      · by_cases h : InLanes addr
        · simp [laneWrites, h]
        · simp [laneWrites, h]
    · exact .inl ⟨by simp [gicdWrites, hc], by simp [laneWrites, hc]⟩
  · exact .inl ⟨rfl, rfl⟩
  · exact .inl ⟨rfl, rfl⟩
  · exact .inl ⟨rfl, rfl⟩

theorem laneWrites_concat (c : Core) (es : List GicEvent) (e : GicEvent) :
    laneWrites c (es ++ [e]) = laneWrites c es ++ laneWrites c [e] := List.filterMap_append

theorem laneWrites_aligned {es : List GicEvent} (h : LanesAligned es) (c : Core) :
    ∀ w ∈ laneWrites c es, NaturallyAligned w.addr w.size := by
  induction es using List.reverseRecOn with
  | nil => simp [laneWrites]
  | append_singleton es e ih =>
    intro w hw
    rw [laneWrites_concat, List.mem_append] at hw
    rcases hw with hw | hw
    · exact ih (fun e he => h e (List.mem_append_left _ he)) w hw
    · rcases writes_cases c e with ⟨-, hnone⟩ | ⟨addr, data, size, rfl, -, hlane⟩
      · rw [hnone] at hw
        exact absurd hw List.not_mem_nil
      · rw [hlane, List.mem_ite_nil_right, List.mem_singleton] at hw
        obtain ⟨hin, rfl⟩ := hw
        exact h _ (List.mem_append_right _ (List.mem_singleton_self _)) (addr, size) rfl hin

/-- In a word of the two registers, the writes to the distributor are those to them. -/
theorem lastWrite_lanes (c : Core) (es : List GicEvent) {addr : BitVec 64} (h : InLanes addr) :
    lastWrite ((gicdWrites c es).map fun x => (x.1 / 4 * 4, x.2)) (addr.toNat / 4 * 4) =
      (lastInWord c es addr).map LaneWrite.data := by
  unfold lastInWord
  induction es using List.reverseRecOn with
  | nil => rfl
  | append_singleton es e ih =>
    have hgicd : gicdWrites c (es ++ [e]) = gicdWrites c es ++ gicdWrites c [e] := List.filterMap_append
    rw [hgicd, laneWrites_concat]
    rcases writes_cases c e with ⟨hnone, hnone'⟩ | ⟨addr', data, size, -, hwrite, hlane⟩
    · rw [hnone, hnone', List.append_nil, List.append_nil, ih]
    · rw [hwrite, hlane, List.map_append, List.map_singleton, lastWrite_concat, ih]
      by_cases hin : InLanes addr'
      · rw [if_pos hin, List.map_append, List.map_singleton, lastWrite_concat, LaneWrite.word_fst]
        by_cases hword : addr'.toNat / 4 * 4 = addr.toNat / 4 * 4
        · rw [if_pos hword, if_pos hword]
          rfl
        · rw [if_neg hword, if_neg hword]
      · have hword : ¬addr'.toNat / 4 * 4 = addr.toNat / 4 * 4 := fun hword => hin ((inLanes_word hword).2 h)
        rw [if_neg hin, if_neg hword, List.append_nil]

/-- A word of the two registers after a run. -/
theorem lane_word (c : Core) (es : List GicEvent) {addr : BitVec 64} (h : InLanes addr) :
    ((gicRun es).1.gicdRegsSet c).words (addr.toNat / 4 * 4) =
      (((lastInWord c es addr).map LaneWrite.data).getD 0).setWidth 32 := by
  -- a write to the word is at an address of the two registers, all of which are dispatched
  have hdispatched : ∀ x ∈ gicdWrites c es, x.1 / 4 * 4 = addr.toNat / 4 * 4 → (gicdWindow.decode x.1).isSome := by
    intro x hx hword
    obtain ⟨e, -, addr', -, hx'⟩ := gicdWrites_access hx
    rw [hx'] at hword ⊢
    exact ((inLanes_word hword).2 h).decode
  rw [gicd_run, words_puts, Window.stores_word gicdWindow_fits, List.map_map, ← lastWrite_lanes c es h]
  · have hmap := lastWrite_map (BitVec.setWidth 32) ((gicdWrites c es).map fun x => (x.1 / 4 * 4, x.2))
      (addr.toNat / 4 * 4)
    rw [List.map_map] at hmap
    refine (congrArg (fun o : Option (BitVec 32) => o.getD 0) hmap).trans ?_
    cases lastWrite ((gicdWrites c es).map fun x => (x.1 / 4 * 4, x.2)) (addr.toNat / 4 * 4) with
    | none => rfl
    | some data => rfl
  · intro x hx
    obtain ⟨y, hy, rfl⟩ := List.mem_map.1 hx
    exact hdispatched y hy

/-- What a read at an address of the two registers returns. -/
theorem lane_read (c : Core) (es : List GicEvent) {addr : BitVec 64} (h : InLanes addr) (size : BitVec 32) :
    mmioGicdRead c addr size (gicRun es).1 =
      ((((lastInWord c es addr).map LaneWrite.data).getD 0).setWidth 32).setWidth 64 := by
  unfold mmioGicdRead
  rw [h.read, lane_word c es h]

/-- A byte of a bank. -/
def GicdRegs.byte (regs : GicdRegs) (b : ℕ) : BitVec 8 := Bytes.byte (regs.words (b / 4 * 4)) (b % 4)

/-- The two registers keep separate bytes, in a run: a read returns the last byte written at
each address that it covers, and a write changes the bytes that it covers only. -/
structure ByteLanes (es : List GicEvent) : Prop where
  read : ∀ pre c addr size post, es = pre ++ ⟨c, .access (.gicdRead addr size)⟩ :: post → InLanes addr →
    ∀ k < size.toNat, Bytes.byte (mmioGicdRead c addr size (gicRun pre).1) k =
      (lastByte c pre (addr.toNat + k)).getD 0
  write : ∀ pre c addr data size post, es = pre ++ ⟨c, .access (.gicdWrite addr data size)⟩ :: post →
    InLanes addr → ∀ c' b, ¬(c' = c ∧ addr.toNat ≤ b ∧ b < addr.toNat + size.toNat) →
      GicdRegs.byte ((mmioGicdWrite c addr data size (gicRun pre).1).1.gicdRegsSet c') b =
        GicdRegs.byte ((gicRun pre).1.gicdRegsSet c') b

/-- The two registers keep separate words, in a run: a read returns the low 32 bits that the
core last wrote in the word, and a write replaces all of the word and nothing else. The
bytes of a read are those last written at their addresses if the last write to the word was
at the address of the read and covers them. -/
structure WordLanes (es : List GicEvent) : Prop where
  read : ∀ pre c addr size post, es = pre ++ ⟨c, .access (.gicdRead addr size)⟩ :: post → InLanes addr →
    mmioGicdRead c addr size (gicRun pre).1 =
      ((((lastInWord c pre addr).map LaneWrite.data).getD 0).setWidth 32).setWidth 64
  bytes : ∀ pre c addr size post, es = pre ++ ⟨c, .access (.gicdRead addr size)⟩ :: post → InLanes addr →
    (∀ w ∈ lastInWord c pre addr, w.addr = addr.toNat ∧ size.toNat ≤ w.size) →
    ∀ k < size.toNat, Bytes.byte (mmioGicdRead c addr size (gicRun pre).1) k =
      (lastByte c pre (addr.toNat + k)).getD 0
  write : ∀ pre c addr data size post, es = pre ++ ⟨c, .access (.gicdWrite addr data size)⟩ :: post →
    InLanes addr → (mmioGicdWrite c addr data size (gicRun pre).1).1 =
      { (gicRun pre).1 with
        gicdRegsSet := Function.update (gicRun pre).1.gicdRegsSet c
          ⟨Function.update ((gicRun pre).1.gicdRegsSet c).words (addr.toNat / 4 * 4) (data.setWidth 32)⟩ }

/-- **Each word of the two registers is one cell**, over every run in which the accesses to
them are naturally aligned. -/
theorem lanes_are_words (es : List GicEvent) (hal : LanesAligned es) : WordLanes es := by
  refine ⟨fun pre c addr size _ _ h => lane_read c pre h size, ?_, ?_⟩
  · rintro pre c addr size post rfl h hlast k hk
    have hpre : LanesAligned pre := fun e he => hal e (List.mem_append_left _ he)
    have haddr := hal _ (List.mem_append_right _ List.mem_cons_self) (addr, size) rfl h
    have hbytes := lastWrite_lane (laneWrites_aligned hpre c) haddr hk hlast
    -- the bytes of the access are bytes of the word
    have hfour : size.toNat ≤ 4 := by
      have := haddr.1
      dsimp only at this
      omega
    unfold lastByte
    rw [hbytes, lane_read c pre h, Bytes.byte_setWidth _ (by omega), Bytes.byte_setWidth _ (by omega)]
    change Bytes.byte (((lastInWord c pre addr).map LaneWrite.data).getD 0) k = _
    unfold lastInWord
    cases lastWrite ((laneWrites c pre).map LaneWrite.word) (addr.toNat / 4 * 4) with
    | none => exact Bytes.byte_zero k
    | some w => rfl
  · intro pre c addr data size _ _ h
    have hsgir : addr ≠ gicdSgir := by
      rintro rfl
      exact absurd ((inLanes_iff _).1 h) (by decide)
    unfold mmioGicdWrite
    rw [if_neg hsgir, h.write]

/-- Core 0 writes two bytes of a word and reads the second. -/
theorem lanes_are_words_byte : WordLanes [⟨0, .access (.gicdWrite 0x400 0x11 1)⟩,
    ⟨0, .access (.gicdWrite 0x401 0x22 1)⟩, ⟨0, .access (.gicdRead 0x401 1)⟩] :=
  lanes_are_words _ (by simp [LanesAligned, GicEvent.gicdAccess, NaturallyAligned])

/-- Core 0 writes `0x11223344` to the word at `0x400`, and reads `0x44` from the byte at `0x401`. -/
theorem byte_lanes_fail : ¬∀ es, LanesAligned es → ByteLanes es := by
  intro h
  have hlanes := h [⟨0, .access (.gicdWrite 0x400 0x11223344 4)⟩, ⟨0, .access (.gicdRead 0x401 1)⟩]
    (by simp [LanesAligned, GicEvent.gicdAccess, NaturallyAligned])
  have hread := hlanes.read [⟨0, .access (.gicdWrite 0x400 0x11223344 4)⟩] 0 0x401 1 [] rfl (by decide) 0 (by decide)
  rw [lane_read 0 _ (by decide)] at hread
  revert hread
  decide

end Mooooooo
