import Mooooooo.Lib.Window
import Mooooooo.Proof.GicStep

/-!
# The registers of the interrupt controller

The register cases of the four callbacks, as windows of word registers (`Lib/Window.lean`).

* `gicd_registers`: **the distributor's registers are distinct cells, banked for each
  core**, over every run of word accesses.
* `gicc_registers_iff`: the CPU interface's registers are distinct cells exactly in the
  runs that stay away from `GICC_NSAPR`, whose index is computed from `GICC_APR`.
* `nsapr3_is_iidr`: there `GICC_NSAPR3` is the same word as `GICC_IIDR`.
-/

namespace Mooooooo

/-! ## Banks behind windows -/

section Bank

variable {φ : Type}

/-- `case lo ... last: index = (addr - base) / 4`. -/
def caseRow (lo last base : BitVec 64) (f : φ) : Row φ := ⟨lo.toNat, last.toNat + 1, base.toNat, f⟩

/-- `case lo:` -/
def caseReg (lo : BitVec 64) (f : φ) : Row φ := caseRow lo lo lo f

theorem decode_caseRow {lo last base : BitVec 64} (hb : base ≤ lo) (f : φ) (w : Window φ) (addr : BitVec 64) :
    Window.decode (caseRow lo last base f :: w) addr.toNat =
      if lo ≤ addr ∧ addr ≤ last then some (f, regIndex addr base) else w.decode addr.toNat := by
  rw [Window.decode_cons]
  have hholds : (caseRow lo last base f).Holds addr.toNat ↔ lo ≤ addr ∧ addr ≤ last := by
    simp only [Row.Holds, caseRow, BitVec.le_def, Nat.lt_succ_iff]
  by_cases h : lo ≤ addr ∧ addr ≤ last
  · rw [if_pos h, if_pos (hholds.2 h)]
    have hle : base ≤ addr := BitVec.le_trans hb h.1
    simp only [Row.index, caseRow, regIndex, BitVec.toNat_udiv, BitVec.toNat_sub_of_le hle]
    rfl
  · rw [if_neg h, if_neg (fun h' => h (hholds.1 h'))]

theorem decode_caseReg (lo : BitVec 64) (f : φ) (w : Window φ) (addr : BitVec 64) :
    Window.decode (caseReg lo f :: w) addr.toNat = if addr = lo then some (f, 0) else w.decode addr.toNat := by
  unfold caseReg
  rw [decode_caseRow (BitVec.le_refl lo)]
  by_cases h : addr = lo
  · subst h
    simp [regIndex]
  · rw [if_neg h, if_neg (fun h' => h (BitVec.le_antisymm h'.2 h'.1))]

variable [DecidableEq φ] [Layout φ]

/-- The size of a member in bytes. -/
def fieldSize (f : φ) : ℕ := (((Layout.members : List (φ × ℕ)).find? fun m => m.1 = f).map Prod.snd).getD 0

/-- The address is in a member. -/
def InField (f : φ) (addr : BitVec 64) : Prop :=
  fieldOffset f ≤ addr.toNat ∧ addr.toNat < fieldOffset f + fieldSize f

instance (f : φ) (addr : BitVec 64) : Decidable (InField f addr) := inferInstanceAs (Decidable (_ ∧ _))

/-- A word of a bank, or 0. -/
def Bank.fetch (regs : Bank φ) : Option (φ × ℕ) → BitVec 64
  | some c => regs.get c.1 c.2
  | none => 0

/-- A bank with a word written, if there is one to write. -/
def Bank.put (regs : Bank φ) (data : BitVec 64) : Option (φ × ℕ) → Bank φ
  | some c => regs.set c.1 c.2 data
  | none => regs

@[simp] theorem fetch_some (regs : Bank φ) (c : φ × ℕ) : regs.fetch (some c) = regs.get c.1 c.2 := rfl

@[simp] theorem fetch_none (regs : Bank φ) : regs.fetch none = 0 := rfl

@[simp] theorem put_some (regs : Bank φ) (data : BitVec 64) (c : φ × ℕ) :
    regs.put data (some c) = regs.set c.1 c.2 data := rfl

@[simp] theorem put_none (regs : Bank φ) (data : BitVec 64) : regs.put data none = regs := rfl

/-- A write through a window is a store. -/
theorem words_put (w : Window φ) (regs : Bank φ) (a : ℕ) (data : BitVec 64) :
    (regs.put data (w.decode a)).words = w.store fieldOffset regs.words a (data.setWidth 32) := by
  unfold Window.store
  cases w.decode a with
  | none => rfl
  | some c => rfl

/-- So are writes, one after the other. -/
theorem words_puts (w : Window φ) (ws : List (ℕ × BitVec 64)) (regs : Bank φ) :
    (ws.foldl (fun regs x => regs.put x.2 (w.decode x.1)) regs).words =
      (ws.map fun x => (x.1, x.2.setWidth 32)).foldl (fun m x => w.store fieldOffset m x.1 x.2) regs.words := by
  induction ws generalizing regs with
  | nil => rfl
  | cons x ws ih =>
    rw [List.foldl_cons, ih, words_put]
    rfl

/-- **A bank behind a window that fits** reads, at an aligned address that is dispatched,
as the low 32 bits of what was last written there. -/
theorem fetch_puts {w : Window φ} (hw : ∀ r ∈ w, r.Fits fieldOffset fieldSize) (ws : List (ℕ × BitVec 64))
    (h4 : ∀ x ∈ ws, 4 ∣ x.1) {a : ℕ} (ha : 4 ∣ a) (hd : (w.decode a).isSome) :
    (ws.foldl (fun regs x => regs.put x.2 (w.decode x.1)) Bank.zero).fetch (w.decode a) =
      (((lastWrite ws a).getD 0).setWidth 32).setWidth 64 := by
  obtain ⟨c, hc⟩ := Option.isSome_iff_exists.1 hd
  rw [hc]
  show ((ws.foldl _ Bank.zero).words (fieldOffset c.1 + 4 * c.2)).setWidth 64 = _
  rw [words_puts, (Window.decode_eq hw ha hc).1, Window.stores_apply hw _ _ ?_ hd, lastWrite_map]
  · cases lastWrite ws a <;> rfl
  · intro x hx
    obtain ⟨y, hy, rfl⟩ := List.mem_map.1 hx
    exact h4 y hy

/-- The bank of a core after a core's write to its own. -/
theorem bank_update (banks : Core → Bank φ) (c c' : Core) (x : ℕ × BitVec 64) {w : Window φ} :
    Function.update banks c' ((banks c').put x.2 (w.decode x.1)) c =
      ([x].filterMap fun y => if c' = c then some y else none).foldl
        (fun regs y => regs.put y.2 (w.decode y.1)) (banks c) := by
  by_cases h : c' = c
  · subst h
    simp
  · simp [h, Function.update_of_ne (Ne.symm h)]

end Bank

/-! ## The distributor -/

/-- The register cases of `mmio_gicd_read` and `mmio_gicd_write` that touch the bank. -/
def gicdWindow : Window GicdField := [
  caseReg gicdCtlr .ctlr,
  caseRow gicdIgroupr gicdIgrouprEnd gicdIgroupr .igroupr,
  caseRow gicdIsenabler gicdIsenablerEnd gicdIsenabler .isenabler,
  caseRow gicdIcenabler gicdIcenablerEnd gicdIcenabler .icenabler,
  caseRow gicdIspendr gicdIspendrEnd gicdIspendr .ispendr,
  caseRow gicdIcpendr gicdIcpendrEnd gicdIcpendr .icpendr,
  caseRow gicdIsactiver gicdIsactiverEnd gicdIsactiver .isactiver,
  caseRow gicdIcactiver gicdIcactiverEnd gicdIcactiver .icactiver,
  caseRow gicdIpriorityr gicdIpriorityrEnd gicdIpriorityr .ipriorityr,
  caseRow gicdItargetsr gicdItargetsrEnd gicdItargetsr .itargetsr,
  caseRow gicdIcfgr gicdIcfgrEnd gicdIcfgr .icfgr,
  caseRow gicdNsacr gicdNsacrEnd gicdNsacr .nsacr,
  caseRow gicdCpendsgir gicdCpendsgirEnd gicdCpendsgir .cpendsgir,
  caseRow gicdSpendsgir gicdSpendsgirEnd gicdSpendsgir .spendsgir,
  caseReg gicdIcpidr2 .icpidr2]

/-- The member and the index that the two callbacks compute for an address. -/
def gicdCell (addr : BitVec 64) : Option (GicdField × ℕ) := gicdWindow.decode addr.toNat

/-- What a read of `GICD_TYPER` returns. -/
def gicdTyperValue : BitVec 64 := 6 ||| (3 <<< 5) ||| (1 <<< 10) ||| (0x1F <<< 11)

/-- **`mmio_gicd_read` reads the cell**, or one of the two fixed values. -/
theorem gicdRead_eq (regs : GicdRegs) (addr : BitVec 64) : regs.read addr =
    if addr = gicdTyper then gicdTyperValue else if addr = gicdIidr then 0x0200143B
    else regs.fetch (gicdCell addr) := by
  simp only [gicdCell, gicdWindow, decode_caseReg, decode_caseRow (BitVec.le_refl _), Window.decode_nil,
    apply_ite regs.fetch, fetch_some, fetch_none]
  unfold GicdRegs.read gicdTyperValue
  by_cases hc : addr = gicdCtlr
  · subst hc
    rfl
  by_cases ht : addr = gicdTyper
  · subst ht
    rfl
  by_cases hi : addr = gicdIidr
  · subst hi
    rfl
  by_cases hs : addr = gicdSgir
  · subst hs
    rfl
  simp only [hc, ht, hi, hs, if_false]

/-- **`mmio_gicd_write` writes the cell**; a write elsewhere has no effect on the bank. -/
theorem gicdWrite_eq (regs : GicdRegs) (addr data : BitVec 64) : regs.write addr data =
    regs.put data (gicdCell addr) := by
  simp only [gicdCell, gicdWindow, decode_caseReg, decode_caseRow (BitVec.le_refl _), Window.decode_nil,
    apply_ite (regs.put data), put_some, put_none]
  unfold GicdRegs.write
  by_cases ht : addr = gicdTyper
  · subst ht
    rfl
  by_cases hi : addr = gicdIidr
  · subst hi
    rfl
  simp only [ht, hi, if_false]

theorem gicdWindow_fits : ∀ r ∈ gicdWindow, r.Fits fieldOffset fieldSize := by decide

/-- The members that read as they were written. -/
def gicdStored : List GicdField := [.ctlr, .igroupr, .isenabler, .icenabler, .ispendr, .icpendr, .isactiver,
  .icactiver, .ipriorityr, .itargetsr, .icfgr, .nsacr, .cpendsgir, .spendsgir, .icpidr2]

/-- An aligned address is dispatched exactly if it is in one of these members. -/
theorem gicdCell_isSome {addr : BitVec 64} (h4 : 4 ∣ addr.toNat) :
    (gicdCell addr).isSome ↔ ∃ f ∈ gicdStored, InField f addr := by
  have hmembers : ∀ r ∈ gicdWindow, r.member ∈ gicdStored := by decide
  have hrows : ∀ f ∈ gicdStored, ∃ r ∈ gicdWindow, r.lo = fieldOffset f ∧ fieldOffset f + fieldSize f < r.hi + 4 ∧
      4 ∣ fieldOffset f + fieldSize f := by decide
  unfold gicdCell
  rw [Window.decode_isSome]
  constructor
  · rintro ⟨r, hr, hlo, hhi⟩
    have hfit := gicdWindow_fits r hr
    have hstart := hfit.start
    have hstop := hfit.stop
    exact ⟨r.member, hmembers r hr, by omega, by omega⟩
  · rintro ⟨f, hf, hlo, hhi⟩
    obtain ⟨r, hr, hrlo, hrhi, hdvd⟩ := hrows f hf
    exact ⟨r, hr, by omega, by omega⟩

/-- The address of a distributor access. -/
def GicEvent.gicdAddr (e : GicEvent) : Option (BitVec 64) :=
  match e.op with
  | .access (.gicdRead addr _) | .access (.gicdWrite addr _ _) => some addr
  | _ => none

/-- What core `c` wrote to the distributor, and where. -/
def gicdWrites (c : Core) (es : List GicEvent) : List (ℕ × BitVec 64) := es.filterMap fun e =>
  match e.op with
  | .access (.gicdWrite addr data _) => if e.core = c then some (addr.toNat, data) else none
  | _ => none

/-- The distributor bank of core `c` after an event. -/
theorem exec_gicd (e : GicEvent) (s : GicState) (c : Core) : (e.exec s).1.1.gicdRegsSet c =
    (gicdWrites c [e]).foldl (fun regs x => regs.put x.2 (gicdWindow.decode x.1)) (s.gicdRegsSet c) := by
  have hnext : ∀ c', (s.next c').gicdRegsSet = s.gicdRegsSet := fun _ => rfl
  obtain ⟨c', op⟩ := e
  cases op with
  | sliceStart =>
    simp only [GicEvent.exec, handleInterrupts_eq, gicdWrites]
    split <;> rfl
  | access a =>
    cases a with
    | gicdRead addr size => rfl
    | giccRead addr size => rfl
    | giccWrite addr data size =>
      simp only [GicEvent.exec, mmioGiccWrite, gicdWrites]
      split
      · rw [pushNext_eq, hnext]; rfl
      · rfl
    | gicdWrite addr data size =>
      have hbank : (mmioGicdWrite c' addr data size s).1.gicdRegsSet = Function.update s.gicdRegsSet c'
          ((s.gicdRegsSet c').put data (gicdWindow.decode addr.toNat)) := by
        have hput := gicdWrite_eq (s.gicdRegsSet c') addr data
        unfold gicdCell at hput
        rw [← hput]
        unfold mmioGicdWrite
        by_cases hs : addr = gicdSgir
        · -- the register cases have none for `GICD_SGIR`
          rw [if_pos hs, writeSgir_eq, hs]
          exact (Function.update_eq_self c' s.gicdRegsSet).symm
        · rw [if_neg hs]
      change (mmioGicdWrite c' addr data size s).1.gicdRegsSet c = _
      rw [hbank, bank_update s.gicdRegsSet c c' (addr.toNat, data)]
      rfl

/-- The distributor bank of core `c` after a run holds what `c` wrote. -/
theorem gicd_run (es : List GicEvent) (c : Core) : (gicRun es).1.gicdRegsSet c =
    (gicdWrites c es).foldl (fun regs x => regs.put x.2 (gicdWindow.decode x.1)) Bank.zero :=
  Cmd.forEach_foldl gicStep (fun s => s.gicdRegsSet c) _ _ (fun e s => exec_gicd e s c) es GicState.init

/-- The distributor accesses of a run are to aligned addresses. -/
def GicdAligned (es : List GicEvent) : Prop := ∀ e ∈ es, ∀ addr ∈ e.gicdAddr, 4 ∣ addr.toNat

/-- What core `c` writes to the distributor, it writes by one of its accesses. -/
theorem gicdWrites_access {es : List GicEvent} {c : Core} {x : ℕ × BitVec 64} (h : x ∈ gicdWrites c es) :
    ∃ e ∈ es, ∃ addr ∈ e.gicdAddr, x.1 = addr.toNat := by
  obtain ⟨⟨c', op⟩, he, hw⟩ := List.mem_filterMap.1 h
  rcases op with (_ | ⟨addr, data, size⟩ | _ | _) | _
  · simp at hw
  · refine ⟨_, he, addr, rfl, ?_⟩
    dsimp only at hw
    split at hw
    · cases hw
      rfl
    · simp at hw
  · simp at hw
  · simp at hw
  · simp at hw

theorem gicdWrites_aligned {es : List GicEvent} (h4 : GicdAligned es) (c : Core) :
    ∀ x ∈ gicdWrites c es, 4 ∣ x.1 := by
  intro x hx
  obtain ⟨e, he, addr, haddr, heq⟩ := gicdWrites_access hx
  rw [heq]
  exact h4 e he addr haddr

/-- The distributor's registers are distinct cells, banked for each core, in a run. The callbacks
read and write the word that `gicdCell` gives, and every index is inside its array; a read by
core `c` returns what `c` last wrote there; two registers are fixed, and all other addresses
read as 0. -/
structure GicdCells (es : List GicEvent) : Prop where
  reads : ∀ (regs : GicdRegs) addr, addr ≠ gicdTyper → addr ≠ gicdIidr → regs.read addr = regs.fetch (gicdCell addr)
  writes : ∀ (regs : GicdRegs) addr data, regs.write addr data = regs.put data (gicdCell addr)
  index : ∀ e ∈ es, ∀ addr ∈ e.gicdAddr, ∀ f i, gicdCell addr = some (f, i) →
    4 * i + 4 ≤ fieldSize f
  stored : ∀ pre c addr size post, es = pre ++ ⟨c, .access (.gicdRead addr size)⟩ :: post →
    (∃ f ∈ gicdStored, InField f addr) → mmioGicdRead c addr size (gicRun pre).1 =
      (((lastWrite (gicdWrites c pre) addr.toNat).getD 0).setWidth 32).setWidth 64
  typer : ∀ pre c size post, es = pre ++ ⟨c, .access (.gicdRead gicdTyper size)⟩ :: post →
    mmioGicdRead c gicdTyper size (gicRun pre).1 = 6 ||| (3 <<< 5) ||| (1 <<< 10) ||| (0x1F <<< 11)
  iidr : ∀ pre c size post, es = pre ++ ⟨c, .access (.gicdRead gicdIidr size)⟩ :: post →
    mmioGicdRead c gicdIidr size (gicRun pre).1 = 0x0200143B
  other : ∀ pre c addr size post, es = pre ++ ⟨c, .access (.gicdRead addr size)⟩ :: post →
    (¬∃ f ∈ gicdStored, InField f addr) → addr ≠ gicdTyper → addr ≠ gicdIidr →
    mmioGicdRead c addr size (gicRun pre).1 = 0

/-- **The distributor's registers are distinct cells**, over every run in which the accesses
to it are aligned. -/
theorem gicd_registers (es : List GicEvent) (h4 : GicdAligned es) : GicdCells es := by
  have hcell : ∀ (regs : GicdRegs) addr, addr ≠ gicdTyper → addr ≠ gicdIidr →
      regs.read addr = regs.fetch (gicdCell addr) := by
    intro regs addr ht hi
    rw [gicdRead_eq, if_neg ht, if_neg hi]
  have hread : ∀ c addr (s : GicState) size, addr ≠ gicdTyper → addr ≠ gicdIidr →
      mmioGicdRead c addr size s = (s.gicdRegsSet c).fetch (gicdCell addr) := by
    intro c addr s size ht hi
    unfold mmioGicdRead
    exact hcell _ addr ht hi
  have hal : ∀ pre c addr size post, es = pre ++ ⟨c, .access (.gicdRead addr size)⟩ :: post →
      4 ∣ addr.toNat ∧ GicdAligned pre := by
    rintro pre c addr size post rfl
    exact ⟨h4 _ (List.mem_append_right _ List.mem_cons_self) addr rfl, fun e he => h4 e (List.mem_append_left _ he)⟩
  refine ⟨hcell, gicdWrite_eq, ?_, ?_, fun _ _ _ _ _ => rfl, fun _ _ _ _ _ => rfl, ?_⟩
  · intro e he addr haddr f i hcell
    exact (Window.decode_eq gicdWindow_fits (h4 e he addr haddr) hcell).2
  · intro pre c addr size post hsplit hf
    obtain ⟨hdvd, hpre⟩ := hal pre c addr size post hsplit
    -- neither fixed register is in a stored member
    have hfixed : ∀ f ∈ gicdStored, ¬InField f gicdTyper ∧ ¬InField f gicdIidr := by decide
    obtain ⟨f, hmem, hin⟩ := hf
    have ht : addr ≠ gicdTyper := by
      rintro rfl
      exact (hfixed f hmem).1 hin
    have hi : addr ≠ gicdIidr := by
      rintro rfl
      exact (hfixed f hmem).2 hin
    have hsome := (gicdCell_isSome hdvd).2 ⟨f, hmem, hin⟩
    rw [hread c addr _ size ht hi, gicd_run]
    exact fetch_puts gicdWindow_fits _ (gicdWrites_aligned hpre c) hdvd hsome
  · intro pre c addr size post hsplit hf ht hi
    obtain ⟨hdvd, -⟩ := hal pre c addr size post hsplit
    have hnone : gicdCell addr = none := by
      rw [← Option.not_isSome_iff_eq_none, gicdCell_isSome hdvd]
      exact hf
    rw [hread c addr _ size ht hi, hnone, fetch_none]

/-- Cores 0 and 1 write one register, and core 0 reads it back. -/
theorem gicd_registers_two : GicdCells [⟨0, .access (.gicdWrite 0x404 0x1122334455667788 4)⟩,
    ⟨1, .access (.gicdWrite 0x404 7 4)⟩, ⟨0, .access (.gicdRead 0x404 4)⟩] :=
  gicd_registers _ (by simp [GicdAligned, GicEvent.gicdAddr])

/-! ## The CPU interface -/

/-- The case `GICC_NSAPR ... GICC_NSAPR_END`, which subtracts `GICC_APR`. -/
def nsaprRow : Row GiccField := caseRow giccNsapr giccNsaprEnd giccApr .nsapr

/-- The register cases in front of it. -/
def giccLow : Window GiccField := [caseReg giccCtlr .ctlr, caseReg giccPmr .pmr, caseReg giccBpr .bpr,
  caseReg giccRpr .rpr, caseReg giccHppir .hppir, caseRow giccApr giccAprEnd giccApr .apr]

/-- The register cases behind it. -/
def giccHigh : Window GiccField := [caseReg giccIidr .iidr, caseReg giccDir .dir]

/-- The member and the index that `mmio_gicc_read` and `mmio_gicc_write` compute for an address. -/
def giccCell (addr : BitVec 64) : Option (GiccField × ℕ) :=
  Window.decode (giccLow ++ nsaprRow :: giccHigh) addr.toNat

/-- **`mmio_gicc_read` reads the cell.** -/
theorem giccRead_eq (regs : GiccRegs) (addr : BitVec 64) : regs.read addr = regs.fetch (giccCell addr) := by
  have hbase : giccApr ≤ giccNsapr := by decide
  simp only [giccCell, giccLow, nsaprRow, giccHigh, List.cons_append, List.nil_append, decode_caseReg,
    decode_caseRow (BitVec.le_refl giccApr), decode_caseRow hbase, Window.decode_nil, apply_ite regs.fetch,
    fetch_some, fetch_none]
  unfold GiccRegs.read
  by_cases he : addr = giccEoir
  · subst he
    rfl
  simp only [he, if_false]

/-- **`mmio_gicc_write` writes the cell.** -/
theorem giccWrite_eq (regs : GiccRegs) (addr data : BitVec 64) :
    regs.write addr data = regs.put data (giccCell addr) := by
  have hbase : giccApr ≤ giccNsapr := by decide
  simp only [giccCell, giccLow, nsaprRow, giccHigh, List.cons_append, List.nil_append, decode_caseReg,
    decode_caseRow (BitVec.le_refl giccApr), decode_caseRow hbase, Window.decode_nil, apply_ite (regs.put data),
    put_some, put_none]
  unfold GiccRegs.write
  by_cases hi : addr = giccIar
  · subst hi
    rfl
  simp only [hi, if_false]

/-- The case `GICC_NSAPR` goes to the words 16 bytes further on, behind `nsapr[3]`. -/
theorem nsapr_cell {addr : BitVec 64} (h : nsaprRow.Holds addr.toNat) (h4 : 4 ∣ addr.toNat) :
    ∃ i, giccCell addr = some (.nsapr, i) ∧ 4 ≤ i ∧ fieldOffset GiccField.nsapr + 4 * i = addr.toNat + 0x10 := by
  have hbounds : nsaprRow.lo = 0xE0 ∧ nsaprRow.hi = 0xFC ∧ nsaprRow.base = 0xD0 := by decide
  obtain ⟨hlo, hhi, hbase⟩ := hbounds
  have hlow : ∀ r ∈ giccLow, r.hi ≤ 0xE0 := by decide
  have hoff : fieldOffset GiccField.nsapr = 0xE0 := by decide
  obtain ⟨h1, h2⟩ := h
  have hnot : ∀ r ∈ giccLow, ¬r.Holds addr.toNat := by
    intro r hr hh
    have := hlow r hr
    have := hh.2
    omega
  have hfind : giccCell addr = some (.nsapr, nsaprRow.index addr.toNat) := by
    unfold giccCell Window.decode
    have hnone : giccLow.find? (fun r => decide (r.Holds addr.toNat)) = none := by
      simpa using hnot
    rw [List.find?_append, hnone, Option.none_or, List.find?_cons_of_pos (by simpa using ⟨h1, h2⟩)]
    rfl
  refine ⟨_, hfind, ?_, ?_⟩
  · unfold Row.index
    omega
  · unfold Row.index
    omega

/-- **`GICC_NSAPR3` is the word of `GICC_IIDR`**: a write to the first is read from the second. -/
theorem nsapr3_is_iidr (c : Core) (data : BitVec 64) (size size' : BitVec 32) (s : GicState) :
    mmioGiccRead c giccIidr size (mmioGiccWrite c (giccNsapr + 12) data size' s).1 =
      (data.setWidth 32).setWidth 64 := by
  have hw : giccCell (giccNsapr + 12) = some (.nsapr, 7) := by decide
  have hr : giccCell giccIidr = some (.iidr, 0) := by decide
  have hword : fieldOffset GiccField.nsapr + 4 * 7 = fieldOffset GiccField.iidr + 4 * 0 := by decide
  unfold mmioGiccRead mmioGiccWrite
  rw [if_neg (by decide), if_neg (by decide)]
  simp only [Function.update_self]
  rw [giccRead_eq, giccWrite_eq, hw, hr, put_some, fetch_some]
  simp only [Bank.get, Bank.set, hword, Function.update_self]

/-- The members that the guest is meant to read as it wrote them. -/
def giccStored : List GiccField := [.ctlr, .pmr, .bpr, .rpr, .hppir, .apr, .nsapr, .iidr, .dir]

/-- The address of an access to the CPU interface. -/
def GicEvent.giccAddr (e : GicEvent) : Option (BitVec 64) :=
  match e.op with
  | .access (.giccRead addr _) | .access (.giccWrite addr _ _) => some addr
  | _ => none

/-- What core `c` wrote to the CPU interface, and where. -/
def giccWrites (c : Core) (es : List GicEvent) : List (ℕ × BitVec 64) := es.filterMap fun e =>
  match e.op with
  | .access (.giccWrite addr data _) => if e.core = c then some (addr.toNat, data) else none
  | _ => none

/-- What core `c` writes to the CPU interface, it writes by one of its accesses. -/
theorem giccWrites_access {es : List GicEvent} {c : Core} {x : ℕ × BitVec 64} (h : x ∈ giccWrites c es) :
    ∃ e ∈ es, ∃ addr ∈ e.giccAddr, x.1 = addr.toNat := by
  obtain ⟨⟨c', op⟩, he, hw⟩ := List.mem_filterMap.1 h
  rcases op with (_ | _ | _ | ⟨addr, data, size⟩) | _
  · simp at hw
  · simp at hw
  · simp at hw
  · refine ⟨_, he, addr, rfl, ?_⟩
    dsimp only at hw
    split at hw
    · cases hw
      rfl
    · simp at hw
  · simp at hw

/-- The bank of core `c` of the CPU interface after an event. -/
theorem exec_gicc (e : GicEvent) (s : GicState) (c : Core) : (e.exec s).1.1.giccRegsSet c =
    (giccWrites c [e]).foldl (fun regs x => regs.put x.2 (Window.decode (giccLow ++ nsaprRow :: giccHigh) x.1))
      (s.giccRegsSet c) := by
  have hnext : ∀ c', (s.next c').giccRegsSet = s.giccRegsSet := fun _ => rfl
  obtain ⟨c', op⟩ := e
  cases op with
  | sliceStart =>
    simp only [GicEvent.exec, handleInterrupts_eq, giccWrites]
    split <;> rfl
  | access a =>
    cases a with
    | gicdRead addr size => rfl
    | giccRead addr size => rfl
    | gicdWrite addr data size =>
      simp only [GicEvent.exec, mmioGicdWrite, giccWrites]
      split
      · rw [writeSgir_eq]; rfl
      · rfl
    | giccWrite addr data size =>
      have hbank : (mmioGiccWrite c' addr data size s).1.giccRegsSet = Function.update s.giccRegsSet c'
          ((s.giccRegsSet c').put data (Window.decode (giccLow ++ nsaprRow :: giccHigh) addr.toNat)) := by
        have hput := giccWrite_eq (s.giccRegsSet c') addr data
        unfold giccCell at hput
        rw [← hput]
        unfold mmioGiccWrite
        by_cases he : addr = giccEoir
        · -- the register cases have none for `GICC_EOIR`
          rw [if_pos he, pushNext_eq, hnext, he]
          exact (Function.update_eq_self c' s.giccRegsSet).symm
        · rw [if_neg he]
      change (mmioGiccWrite c' addr data size s).1.giccRegsSet c = _
      rw [hbank, bank_update s.giccRegsSet c c' (addr.toNat, data)]
      rfl

/-- The bank of core `c` of the CPU interface after a run holds what `c` wrote. -/
theorem gicc_run (es : List GicEvent) (c : Core) : (gicRun es).1.giccRegsSet c =
    (giccWrites c es).foldl (fun regs x => regs.put x.2 (Window.decode (giccLow ++ nsaprRow :: giccHigh) x.1))
      Bank.zero :=
  Cmd.forEach_foldl gicStep (fun s => s.giccRegsSet c) _ _ (fun e s => exec_gicc e s c) es GicState.init

/-- The accesses of a run to the CPU interface are to aligned addresses. -/
def GiccAligned (es : List GicEvent) : Prop := ∀ e ∈ es, ∀ addr ∈ e.giccAddr, 4 ∣ addr.toNat

/-- No access of a run is to the range of `GICC_NSAPR`. -/
def NoNsapr (es : List GicEvent) : Prop :=
  ∀ e ∈ es, ∀ addr ∈ e.giccAddr, ¬(giccNsapr ≤ addr ∧ addr ≤ giccNsaprEnd)

/-- The registers of the CPU interface are distinct cells in a run: the callbacks read and write
the word that `giccCell` gives, every index is inside its array, and a read by core `c` returns
what `c` last wrote to the register. -/
structure GiccCells (es : List GicEvent) : Prop where
  reads : ∀ (regs : GiccRegs) addr, regs.read addr = regs.fetch (giccCell addr)
  writes : ∀ (regs : GiccRegs) addr data, regs.write addr data = regs.put data (giccCell addr)
  index : ∀ e ∈ es, ∀ addr ∈ e.giccAddr, ∀ f i, giccCell addr = some (f, i) → f = .apr ∨ f = .nsapr → i < 4
  stored : ∀ pre c addr size post, es = pre ++ ⟨c, .access (.giccRead addr size)⟩ :: post →
    (∃ f ∈ giccStored, InField f addr) → mmioGiccRead c addr size (gicRun pre).1 =
      (((lastWrite (giccWrites c pre) addr.toNat).getD 0).setWidth 32).setWidth 64

theorem nsaprRow_holds (addr : BitVec 64) :
    nsaprRow.Holds addr.toNat ↔ giccNsapr ≤ addr ∧ addr ≤ giccNsaprEnd := by
  simp only [Row.Holds, nsaprRow, caseRow, BitVec.le_def, Nat.lt_succ_iff]

theorem giccRest_fits : ∀ r ∈ giccLow ++ giccHigh, r.Fits fieldOffset fieldSize := by decide

/-- An aligned address of a register is dispatched, outside the case `GICC_NSAPR` by another row. -/
theorem giccRest_isSome {addr : BitVec 64} (h4 : 4 ∣ addr.toNat) (hn : ¬nsaprRow.Holds addr.toNat)
    (hf : ∃ f ∈ giccStored, InField f addr) : (Window.decode (giccLow ++ giccHigh) addr.toNat).isSome := by
  have hrows : ∀ f ∈ giccStored, f ≠ .nsapr → ∃ r ∈ giccLow ++ giccHigh, r.lo = fieldOffset f ∧
      fieldOffset f + fieldSize f < r.hi + 4 ∧ 4 ∣ fieldOffset f + fieldSize f := by decide
  have hnsapr : nsaprRow.lo = fieldOffset GiccField.nsapr ∧
      fieldOffset GiccField.nsapr + fieldSize GiccField.nsapr ≤ nsaprRow.hi := by decide
  obtain ⟨f, hmem, hlo, hhi⟩ := hf
  rw [Window.decode_isSome]
  by_cases h : f = .nsapr
  · subst h
    exact absurd ⟨by omega, by omega⟩ hn
  · obtain ⟨r, hr, hrlo, hrhi, hdvd⟩ := hrows f hmem h
    exact ⟨r, hr, by omega, by omega⟩

/-- Without accesses to the range of `GICC_NSAPR`, the other rows are all there is. -/
theorem giccCells_of_noNsapr {es : List GicEvent} (h4 : GiccAligned es) (hn : NoNsapr es) : GiccCells es := by
  have hrest : ∀ e ∈ es, ∀ addr ∈ e.giccAddr,
      giccCell addr = Window.decode (giccLow ++ giccHigh) addr.toNat := fun e he addr haddr =>
    Window.decode_without (by rw [nsaprRow_holds]; exact hn e he addr haddr) giccLow giccHigh
  refine ⟨giccRead_eq, giccWrite_eq, ?_, ?_⟩
  · intro e he addr haddr f i hcell hf
    rw [hrest e he addr haddr] at hcell
    have hle := (Window.decode_eq giccRest_fits (h4 e he addr haddr) hcell).2
    have hsize : fieldSize GiccField.apr = 16 ∧ fieldSize GiccField.nsapr = 16 := by decide
    rcases hf with rfl | rfl <;> dsimp only at hle <;> omega
  · intro pre c addr size post hsplit hf
    have he : ⟨c, .access (.giccRead addr size)⟩ ∈ es := by rw [hsplit]; simp
    have hpre : ∀ e ∈ pre, e ∈ es := fun e h => by rw [hsplit]; exact List.mem_append_left _ h
    have hdvd := h4 _ he addr rfl
    have hout : ¬nsaprRow.Holds addr.toNat := by rw [nsaprRow_holds]; exact hn _ he addr rfl
    have hiar : addr ≠ giccIar := by
      have hnot : ∀ f ∈ giccStored, ¬InField f giccIar := by decide
      rintro rfl
      obtain ⟨f, hmem, hin⟩ := hf
      exact hnot f hmem hin
    have hfold : (gicRun pre).1.giccRegsSet c = (giccWrites c pre).foldl
        (fun regs x => regs.put x.2 (Window.decode (giccLow ++ giccHigh) x.1)) Bank.zero := by
      rw [gicc_run]
      apply List.foldl_ext
      intro regs x hx
      obtain ⟨e, hmem, a, ha, hxa⟩ := giccWrites_access hx
      rw [hxa]
      exact congrArg (Bank.put regs x.2) (hrest e (hpre e hmem) a ha)
    unfold mmioGiccRead
    rw [if_neg hiar, giccRead_eq, hrest _ he addr rfl, hfold]
    refine fetch_puts giccRest_fits _ ?_ hdvd (giccRest_isSome hdvd hout hf)
    intro x hx
    obtain ⟨e, hmem, a, ha, hxa⟩ := giccWrites_access hx
    rw [hxa]
    exact h4 e (hpre e hmem) a ha

/-- **When the CPU interface's registers are distinct cells**: in the runs without an access
to the range of `GICC_NSAPR`. -/
theorem gicc_registers_iff (es : List GicEvent) (h4 : GiccAligned es) : GiccCells es ↔ NoNsapr es := by
  refine ⟨?_, giccCells_of_noNsapr h4⟩
  intro h e he addr haddr hin
  obtain ⟨i, hcell, hi, -⟩ := nsapr_cell ((nsaprRow_holds addr).2 hin) (h4 e he addr haddr)
  have := h.index e he addr haddr _ i hcell (.inr rfl)
  omega

/-- Core 0 writes and reads `GICC_PMR`. -/
theorem gicc_registers_pmr :
    GiccCells [⟨0, .access (.giccWrite giccPmr 0xF0 4)⟩, ⟨0, .access (.giccRead giccPmr 4)⟩] ↔
    NoNsapr [⟨0, .access (.giccWrite giccPmr 0xF0 4)⟩, ⟨0, .access (.giccRead giccPmr 4)⟩] :=
  gicc_registers_iff _ (by simp [GiccAligned, GicEvent.giccAddr, giccPmr])

/-- Core 0 writes 5 to `GICC_NSAPR3` and then reads it from `GICC_IIDR`. -/
theorem nsapr3_read_as_iidr : ¬∀ es, GiccAligned es → GiccCells es := by
  intro h
  have hcells := h [⟨0, .access (.giccWrite (giccNsapr + 12) 5 4)⟩, ⟨0, .access (.giccRead giccIidr 4)⟩]
    (by simp [GiccAligned, GicEvent.giccAddr, giccNsapr, giccIidr])
  have hread := hcells.stored [⟨0, .access (.giccWrite (giccNsapr + 12) 5 4)⟩] 0 giccIidr 4 [] rfl
    ⟨.iidr, by decide, by decide⟩
  have halias := nsapr3_is_iidr 0 5 4 4 GicState.init
  have hrun : (gicRun [⟨0, .access (.giccWrite (giccNsapr + 12) 5 4)⟩]).1 =
      (mmioGiccWrite 0 (giccNsapr + 12) 5 4 GicState.init).1 := rfl
  rw [hrun, halias] at hread
  revert hread
  decide

end Mooooooo
