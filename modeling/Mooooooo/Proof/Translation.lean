import Mooooooo.Proof.Walk

/-!
# What the walk reads and prints

* `walk_in_dram_iff`: **the walk stays inside a bank exactly if it comes to no table at an
  end of DRAM.** Its guard lets through the first byte of DRAM, for which `paddr_to_alloc`
  points behind another bank, and tables that begin less than a table before the end.
* `prints_iff`, `walk_reports_iff`: which descriptors are printed, and when these are the
  ones that translate the address. The test compares with one page at every level, its
  end included, and takes the addresses of TTBR0 for addresses of the upper half.
* `line_is_descriptor`: nothing else is printed.
-/

namespace Mooooooo

variable {mem : HostBlock → ℕ → BitVec 8} {ttbr0 ttbr1 check : BitVec 64}

/-! ## Reads -/

/-- The tables that an address space has in the addresses that the guard accepts are in DRAM. -/
def TablesInDram (mem : HostBlock → ℕ → BitVec 8) (root : BitVec 64) : Prop :=
  ∀ level o t, TableAt mem root level o t → 0x80000000 ≤ t.toNat → t.toNat ≤ 0xC0000000 → InDram t

/-- The reads of a table are inside a bank exactly if the table is in DRAM. -/
theorem reads_inBank_iff {t : BitVec 64} (hlo : 0x80000000 ≤ t.toNat) (hhi : t.toNat ≤ 0xC0000000) :
    (∀ i < ttbEntries, InBank (paddrToAlloc t) (i * 8)) ↔ InDram t := by
  have h512 : ttbEntries = 512 := rfl
  have hsize : dramSize.toNat = 0x40000000 := by decide
  constructor
  · intro h
    by_cases hbase : t = 0x80000000
    · -- one past the end of the fourth bank
      subst hbase
      obtain ⟨p, hp, -, hoff⟩ := h 0 (by omega)
      obtain rfl : p = ⟨.dram4, 0x40000000⟩ := Option.some.inj (hp.symm.trans (by decide))
      exact absurd hoff (by decide)
    · have hlt : 0x80000000 < t.toNat := by
        have : t.toNat ≠ (0x80000000 : BitVec 64).toNat := fun h => hbase (BitVec.eq_of_toNat_eq h)
        rw [show (0x80000000 : BitVec 64).toNat = 0x80000000 by decide] at this
        omega
      obtain ⟨p, hp, -, hoff⟩ := h 511 (by omega)
      rw [paddrToAlloc_eq, if_pos (by bv_omega)] at hp
      obtain rfl := Option.some.inj hp
      dsimp only at hoff
      refine ⟨hlt, ?_⟩
      bv_omega
  · intro hin i hi
    refine ⟨_, paddrToAlloc_inDram hin, rfl, ?_⟩
    obtain ⟨hlo, hhi⟩ := hin
    dsimp only
    bv_omega

/-- The walk from one root. -/
theorem iterate_in_dram_iff (mem : HostBlock → ℕ → BitVec 8) (check root : BitVec 64) :
    (∀ ptr off, .read ptr off ∈ ucMmuLevelIterate mem check 2 root 0 → InBank ptr off) ↔
      TablesInDram mem root := by
  rw [ucMmuLevelIterate_eq mem check le_rfl]
  constructor
  · intro h level o t htable hlo hhi
    obtain ⟨base, hreach, -⟩ := reach_of_tableAt check htable
    rw [← reads_inBank_iff hlo hhi]
    intro i hi
    have hopens := (opens_iff mem check (t, base)).2 ⟨hlo, hhi⟩
    exact h _ _ (Tables.Walker.mem_walk.2 ⟨_, _, hreach, read_mem_records.2 ⟨hopens, i, hi, rfl, rfl⟩⟩)
  · intro hin ptr off hread
    obtain ⟨m, t, hreach, hrec⟩ := Tables.Walker.mem_walk.1 hread
    obtain ⟨hopens, i, hi, rfl, rfl⟩ := read_mem_records.1 hrec
    obtain ⟨hlo, hhi⟩ := (opens_iff mem check t).1 hopens
    obtain ⟨-, o, htable, -⟩ := tableAt_of_reach hin hreach
    exact (reads_inBank_iff hlo hhi).2 (hin _ _ _ htable hlo hhi) i hi

/-- **When the walk reads inside guest DRAM only**: exactly if every table in the addresses
that its guard accepts begins behind the first byte and ends by the end of the bank. -/
theorem walk_in_dram_iff (mem : HostBlock → ℕ → BitVec 8) (ttbr0 ttbr1 check : BitVec 64) :
    (∀ ptr off, .read ptr off ∈ ucMmuWalk mem ttbr0 ttbr1 check → InBank ptr off) ↔
      TablesInDram mem (ttbr0 &&& 0xFFFFFFFF) ∧ TablesInDram mem (ttbr1 &&& 0xFFFFFFFF) := by
  rw [← iterate_in_dram_iff mem check, ← iterate_in_dram_iff mem check]
  simp only [ucMmuWalk, List.cons_append, List.mem_cons, List.mem_append, reduceCtorEq, false_or]
  constructor
  · intro h
    exact ⟨fun ptr off hr => h ptr off (.inl hr), fun ptr off hr => h ptr off (.inr hr)⟩
  · rintro ⟨h0, h1⟩ ptr off (hr | hr)
    · exact h0 ptr off hr
    · exact h1 ptr off hr

/-- The table at the end of DRAM passes the guard. -/
theorem table_behind_dram :
    ¬∀ ptr off, .read ptr off ∈ ucMmuWalk (fun _ _ => 0) 0xC0000000 0 0 → InBank ptr off := by
  intro h
  have hin := (iterate_in_dram_iff (fun _ _ => 0) 0 0xC0000000).1
    fun ptr off hr => h ptr off (.tail _ (List.mem_append_left _ hr))
  have hroot := hin 0 0 _ .root (by decide) (by decide)
  exact absurd hroot.2 (by decide)

/-! ## Lines -/

/-- The two halves of the address space. -/
inductive Half
  | ttbr0
  | ttbr1

/-- The root table of a half. -/
def Half.rootTable (ttbr0 ttbr1 : BitVec 64) : Half → BitVec 64
  | .ttbr0 => ttbr0 &&& 0xFFFFFFFF
  | .ttbr1 => ttbr1 &&& 0xFFFFFFFF

/-- The part of a walk under the heading of a half. -/
def Half.part (calls : List WalkCall) : Half → List WalkCall
  | .ttbr0 => calls.takeWhile fun c => c ≠ .ttbr1
  | .ttbr1 => calls.dropWhile fun c => c ≠ .ttbr1

/-- Under the heading of a half, the walk for the address `a` prints entry `i` of a table,
for the addresses from `o` on. Both halves have their lines in addresses of the upper one. -/
def Prints (mem : HostBlock → ℕ → BitVec 8) (ttbr0 ttbr1 a : BitVec 64) (h : Half) (level i o : ℕ)
    (val : BitVec 64) : Prop :=
  ∃ vaddr : BitVec 64, vaddr.toNat % 2 ^ 39 = o ∧
    .line (ttbLine level i vaddr val) ∈ h.part (ucMmuWalk mem ttbr0 ttbr1 a)

/-- The first address of a half. -/
def Half.start : Half → ℕ
  | .ttbr0 => 0
  | .ttbr1 => upperHalf

/-- A descriptor for the addresses from `o` on translates `a`. -/
def Translates (h : Half) (level o a : ℕ) : Prop :=
  h.start + o ≤ a ∧ a < h.start + o + (ttbVaddrSizes level).toNat

/-- A descriptor for the addresses from `o` on is printed for `a` if and only if it
translates `a`. -/
def Reported (level o a : ℕ) : Half → Prop
  | .ttbr0 => ¬(o ≤ a ∧ a < o + (ttbVaddrSizes level).toNat) ∧
      ¬(upperHalf + o ≤ a ∧ a ≤ upperHalf + o + 0x1000 ∧ upperHalf + o + 0x1000 < 2 ^ 64)
  | .ttbr1 =>
      (level < 2 → ¬(upperHalf + o + 0x1000 < a ∧ a < upperHalf + o + (ttbVaddrSizes level).toNat)) ∧
      (level = 2 → a ≠ upperHalf + o + 0x1000 ∧ (upperHalf + o + 0x1000 = 2 ^ 64 → a < upperHalf + o))

theorem heading_notMem {addr base : BitVec 64} : .ttbr1 ∉ ucMmuLevelIterate mem check 2 addr base := by
  rw [ucMmuLevelIterate_eq mem check le_rfl]
  intro h
  obtain ⟨m, t, -, hrec⟩ := Tables.Walker.mem_walk.1 h
  obtain ⟨-, i, -, hvisit⟩ := (Tables.Walker.mem_records (by simp [ttbWalker])).1 hrec
  unfold ttbWalker at hvisit
  dsimp only at hvisit
  rw [List.mem_cons] at hvisit
  split at hvisit <;> simp at hvisit

/-- The lines under a heading are those of the walk from the root of its half. -/
theorem line_mem_part (a : BitVec 64) (h : Half) (l : TtbLine) :
    .line l ∈ h.part (ucMmuWalk mem ttbr0 ttbr1 a) ↔
      .line l ∈ ucMmuLevelIterate mem a 2 (h.rootTable ttbr0 ttbr1) 0 := by
  have hfirst : ∀ c ∈ .ttbr0 :: ucMmuLevelIterate mem a 2 (ttbr0 &&& 0xFFFFFFFF) 0,
      decide (c ≠ WalkCall.ttbr1) = true := by
    intro c hc
    rw [List.mem_cons] at hc
    rcases hc with rfl | hc
    · rfl
    · exact decide_eq_true fun heq => heading_notMem (heq ▸ hc)
  cases h with
  | ttbr0 =>
    unfold Half.part Half.rootTable ucMmuWalk
    dsimp only
    rw [List.takeWhile_append_of_pos hfirst, List.takeWhile_cons_of_neg (by simp), List.append_nil]
    simp
  | ttbr1 =>
    unfold Half.part Half.rootTable ucMmuWalk
    dsimp only
    rw [List.dropWhile_append_of_pos hfirst, List.dropWhile_cons_of_neg (by simp)]
    simp

/-- The addresses that pass the test of a descriptor. At the last page its bound wraps. -/
theorem tested_iff {a vaddr : BitVec 64} {o : ℕ} (ha : a ≠ 0) (hv : vaddr.toNat = upperHalf + o) :
    Tested a vaddr ↔
      upperHalf + o ≤ a.toNat ∧ a.toNat ≤ upperHalf + o + 0x1000 ∧ upperHalf + o + 0x1000 < 2 ^ 64 := by
  have hlt := a.isLt
  have hvlt := vaddr.isLt
  have hend : (vaddr + 0x1000).toNat = (upperHalf + o + 0x1000) % 2 ^ 64 := by
    rw [BitVec.toNat_add, hv]
    rfl
  unfold Tested
  rw [or_iff_right ha, ge_iff_le, BitVec.le_def, BitVec.le_def, hend, hv]
  constructor
  · rintro ⟨hlo, hhi⟩
    omega
  · rintro ⟨hlo, hhi, hwrap⟩
    rw [Nat.mod_eq_of_lt hwrap]
    exact ⟨hlo, hhi⟩

/-- An entry's address in the upper half is known from its lower bits. -/
theorem entryVaddr_of_mod {level i o : ℕ} {base : BitVec 64} (h : (entryVaddr level base i).toNat % 2 ^ 39 = o) :
    (entryVaddr level base i).toNat = upperHalf + o := by
  have hle : upperHalf ≤ (entryVaddr level base i).toNat := by
    unfold entryVaddr
    rw [BitVec.toNat_or]
    exact Nat.right_le_or
  have hlt := (entryVaddr level base i).isLt
  have hval : upperHalf = 0xffffff8000000000 := rfl
  omega

/-- **Which descriptors are printed**: those whose address in the upper half is at most a
page, its end included, below the address, unless that end is the end of all addresses. -/
theorem prints_iff {a : BitVec 64} {h : Half} {level i o : ℕ} {val : BitVec 64} (ha : a ≠ 0)
    (hd : Descriptor mem (h.rootTable ttbr0 ttbr1) level i o val) :
    Prints mem ttbr0 ttbr1 a h level i o val ↔
      upperHalf + o ≤ a.toNat ∧ a.toNat ≤ upperHalf + o + 0x1000 ∧ upperHalf + o + 0x1000 < 2 ^ 64 := by
  unfold Prints
  constructor
  · rintro ⟨vaddr, hmod, hline⟩
    rw [line_mem_part, ucMmuLevelIterate_eq mem a le_rfl] at hline
    obtain ⟨m, t, -, hrec⟩ := Tables.Walker.mem_walk.1 hline
    obtain ⟨-, i', -, -, htest, heq⟩ := line_mem_records.1 hrec
    obtain rfl : vaddr = entryVaddr (2 - m) t.2 i' := congrArg TtbLine.vaddr heq
    exact (tested_iff ha (entryVaddr_of_mod hmod)).1 htest
  · intro htest
    obtain ⟨⟨t, start, htable, hin, rfl, rfl⟩, hi, hval⟩ := hd
    obtain ⟨base, hreach, hbase⟩ := reach_of_tableAt a htable
    have hlt := htable.entry_lt hi
    have hv := entryVaddr_toNat hbase hlt hi
    have hlevel : 2 - (2 - level) = level := by
      have := htable.bound.1
      omega
    have hupper : upperHalf = (2 ^ 25 - 1) * 2 ^ 39 := rfl
    refine ⟨entryVaddr level base i, by rw [hv]; omega, ?_⟩
    rw [line_mem_part, ucMmuLevelIterate_eq mem a le_rfl]
    refine Tables.Walker.mem_walk.2 ⟨_, _, hreach, line_mem_records.2 ⟨hin.opens mem a base, i, hi, ?_⟩⟩
    dsimp only
    rw [hlevel, entry_eq hin]
    exact ⟨hval, (tested_iff ha hv).2 htest, rfl⟩

/-- The test against the range, at each level. -/
theorem reported_iff {level o a : ℕ} (h : Half) (hlevel : level ≤ 2)
    (hend : o + (ttbVaddrSizes level).toNat ≤ 2 ^ 39) (ha : a < 2 ^ 64) :
    ((upperHalf + o ≤ a ∧ a ≤ upperHalf + o + 0x1000 ∧ upperHalf + o + 0x1000 < 2 ^ 64) ↔
      Translates h level o a) ↔ Reported level o a h := by
  have hupper : upperHalf = 0xffffff8000000000 := rfl
  have hsizes : (ttbVaddrSizes 0).toNat = 0x40000000 ∧ (ttbVaddrSizes 1).toNat = 0x200000 ∧
      (ttbVaddrSizes 2).toNat = 0x1000 := by decide
  obtain ⟨h0, h1, h2⟩ := hsizes
  have hcases : level = 0 ∨ level = 1 ∨ level = 2 := by omega
  cases h with
  | ttbr0 =>
    -- the two ranges are apart
    unfold Translates Reported Half.start
    dsimp only
    omega
  | ttbr1 =>
    unfold Translates Reported Half.start
    dsimp only
    rcases hcases with rfl | rfl | rfl
    · omega
    · omega
    · omega

/-- **When the walk reports a descriptor exactly**: for the upper half, not between a page
and the end of a larger range, not at the end of a page, and not in the last page; for the
lower half, only where neither the descriptor nor its image in the upper half is. -/
theorem walk_reports_iff (mem : HostBlock → ℕ → BitVec 8) (ttbr0 ttbr1 a : BitVec 64) (h : Half)
    {level i o : ℕ} {val : BitVec 64} (ha : a ≠ 0)
    (hd : Descriptor mem (h.rootTable ttbr0 ttbr1) level i o val) :
    (Prints mem ttbr0 ttbr1 a h level i o val ↔ Translates h level o a.toNat) ↔ Reported level o a.toNat h := by
  rw [prints_iff ha hd]
  obtain ⟨⟨t, start, htable, -, -, rfl⟩, hi, -⟩ := hd
  exact reported_iff h htable.bound.1 (htable.entry_end hi) a.isLt

/-- Memory with one descriptor, of a block, in a table at `0x80001000`. -/
def oneBlock : HostBlock → ℕ → BitVec 8 := fun _ off => if off = 0x1000 then 1 else 0

theorem oneBlock_descriptor : Descriptor oneBlock (Half.ttbr1.rootTable 0x80002000 0x80001000) 0 0 0 1 where
  table := ⟨0x80001000, 0, .root, ⟨by decide, by decide⟩, by decide, by decide⟩
  idx := by decide
  nonzero := by decide

/-- The first page of the block. -/
theorem first_page_reported :
    Prints oneBlock 0x80002000 0x80001000 0xffffff8000000010 .ttbr1 0 0 0 1 ↔
      Translates .ttbr1 0 0 0xffffff8000000010 :=
  (walk_reports_iff oneBlock 0x80002000 0x80001000 0xffffff8000000010 .ttbr1 (by decide) oneBlock_descriptor).2
    ⟨fun _ => by decide, fun h => absurd h (by decide)⟩

/-- No byte of this memory makes a table descriptor. -/
theorem oneBlock_tables {root t : BitVec 64} {level o : ℕ} (h : TableAt oneBlock root level o t) : t = root := by
  induction h with
  | root => rfl
  | @next level o t i _ _ _ _ htype _ =>
    have hbit : (descriptorAt oneBlock t i).getLsbD 1 = true := by
      have := congrArg (fun val => val.getLsbD 1) htype
      simpa [ttbEntryTypeMask] using this
    have hbyte : ∀ off, (oneBlock .dram off).getLsbD 1 = false := by
      intro off
      unfold oneBlock
      split <;> rfl
    have hlow : (descriptorAt oneBlock t i).getLsbD 1 =
        (oneBlock .dram (t.toNat - 0x80000000 + i * 8)).getLsbD 1 := by
      simp [descriptorAt, leWord, List.range_succ]
    rw [hbyte, hbit] at hlow
    exact absurd hlow (by decide)

/-- The third page of the block: all tables are in DRAM, and the descriptor translates the
address and is not printed. -/
theorem third_page_not_reported :
    (∀ h level o t, TableAt oneBlock (Half.rootTable 0x80002000 0x80001000 h) level o t → InDram t) ∧
      ¬(Prints oneBlock 0x80002000 0x80001000 0xffffff8000002000 .ttbr1 0 0 0 1 ↔
        Translates .ttbr1 0 0 0xffffff8000002000) := by
  constructor
  · intro h level o t htable
    rw [oneBlock_tables htable]
    cases h with
    | ttbr0 => exact ⟨by decide, by decide⟩
    | ttbr1 => exact ⟨by decide, by decide⟩
  · rw [prints_iff (by decide) oneBlock_descriptor]
    intro h
    have hpage := h.2 ⟨by decide, by decide⟩
    exact absurd hpage.2.1 (by decide)

/-- **Every line is a descriptor's**, when no table is at an end of DRAM. -/
theorem line_is_descriptor {a : BitVec 64} {h : Half} (hin : TablesInDram mem (h.rootTable ttbr0 ttbr1))
    {l : TtbLine} (hl : .line l ∈ h.part (ucMmuWalk mem ttbr0 ttbr1 a)) :
    ∃ level i o vaddr val, Descriptor mem (h.rootTable ttbr0 ttbr1) level i o val ∧
      vaddr.toNat = upperHalf + o ∧ l = ttbLine level i vaddr val := by
  rw [line_mem_part, ucMmuLevelIterate_eq mem a le_rfl] at hl
  obtain ⟨m, t, hreach, hrec⟩ := Tables.Walker.mem_walk.1 hl
  obtain ⟨hopens, i, hi, hval, -, rfl⟩ := line_mem_records.1 hrec
  obtain ⟨hlo, hhi⟩ := (opens_iff mem a t).1 hopens
  obtain ⟨-, o, htable, hbase⟩ := tableAt_of_reach hin hreach
  have hdram := hin _ _ _ htable hlo hhi
  exact ⟨2 - m, i, _, _, _, ⟨⟨t.1, o, htable, hdram, entry_eq hdram mem i, rfl⟩, hi, hval⟩,
    entryVaddr_toNat hbase (htable.entry_lt hi) hi, rfl⟩

end Mooooooo
