import Mooooooo.Lib.Tables
import Mooooooo.Proof.Dram
import Mooooooo.Spec.Walk

/-!
# The walk of the page tables

* `ucMmuLevelIterate_eq`: the recursion of the source is a walk over tables of tables.
* `TableAt`, `Descriptor`: the tables and descriptors of an address space, read off guest
  DRAM; `reach_of_tableAt` and `tableAt_of_reach` say that the walk comes to just these.
-/

namespace Mooooooo

/-- A table of the walk: its address, and the address that its entries' ranges start from. -/
abbrev TtbTable := BitVec 64 × BitVec 64

/-- What the walk reads as entry `i` of a table. -/
def entry (mem : HostBlock → ℕ → BitVec 8) (t : BitVec 64) (i : ℕ) : BitVec 64 :=
  hostRead mem (paddrToAlloc t) (i * 8)

/-- The address that the walk gives to entry `i`. -/
def entryVaddr (level : ℕ) (base : BitVec 64) (i : ℕ) : BitVec 64 :=
  base + ttbVaddrSizes level * BitVec.ofNat 64 i ||| 0xffffff8000000000

/-- The test that decides whether a descriptor is printed. -/
def Tested (check vaddr : BitVec 64) : Prop := check = 0 ∨ check ≥ vaddr ∧ check ≤ vaddr + 0x1000

instance (check vaddr : BitVec 64) : Decidable (Tested check vaddr) := inferInstanceAs (Decidable (_ ∨ _))

/-- The walk of the source as a walk over tables. -/
def ttbWalker (mem : HostBlock → ℕ → BitVec 8) (check : BitVec 64) : Tables.Walker TtbTable WalkCall where
  width := ttbEntries
  opens t := decide ¬(t.1 - dramBase.setWidth 64 > dramSize.signExtend 64)
  refuse n t := [.bad (2 - n) t.1]
  visit n t i := .read (paddrToAlloc t.1) (i * 8) ::
    if entry mem t.1 i ≠ 0 ∧ Tested check (entryVaddr (2 - n) t.2 i) then
      [.line (ttbLine (2 - n) i (entryVaddr (2 - n) t.2 i) (entry mem t.1 i))]
    else []
  child n t i :=
    if entry mem t.1 i ≠ 0 ∧ (entry mem t.1 i &&& ttbEntryTypeMask).setWidth 8 = (3 : BitVec 8) then
      some (entry mem t.1 i &&& ttbEntryAddrMask, entryVaddr (2 - n) t.2 i)
    else none

section Walker

variable (mem : HostBlock → ℕ → BitVec 8) (check : BitVec 64)

/-- The body of the recursion. At the lowest level nothing is descended to. -/
theorem ucMmuLevel_eq {n : ℕ} (hn : n ≤ 2) (addr base : BitVec 64)
    (descend : BitVec 64 → BitVec 64 → List WalkCall) (hdescend : n = 0 → ∀ addr base, descend addr base = []) :
    ucMmuLevel mem check (2 - n) addr base descend =
      if (ttbWalker mem check).opens (addr, base) = true then
        (List.range ttbEntries).flatMap fun i => (ttbWalker mem check).visit n (addr, base) i ++
          ((ttbWalker mem check).child n (addr, base) i).elim [] fun t => descend t.1 t.2
      else (ttbWalker mem check).refuse n (addr, base) := by
  unfold ucMmuLevel
  by_cases hbad : addr - dramBase.setWidth 64 > dramSize.signExtend 64
  · have hopens : ¬(ttbWalker mem check).opens (addr, base) = true := fun h => of_decide_eq_true h hbad
    rw [if_pos hbad, if_neg hopens]
    rfl
  · have hopens : (ttbWalker mem check).opens (addr, base) = true := decide_eq_true hbad
    rw [if_neg hbad, if_pos hopens]
    apply List.flatMap_congr
    intro i _
    unfold ttbWalker
    dsimp only
    change _ :: (if entry mem addr i ≠ 0 then
      (if Tested check (entryVaddr (2 - n) base i) then _ else _) ++ _ else _) = _
    by_cases hval : entry mem addr i = 0
    · simp [hval]
    · have hline : (entry mem addr i ≠ 0 ∧ Tested check (entryVaddr (2 - n) base i)) ↔
          Tested check (entryVaddr (2 - n) base i) := and_iff_right hval
      rw [if_pos hval, List.cons_append, if_congr hline rfl rfl]
      congr 2
      change _ = ((ttbWalker mem check).child n (addr, base) i).elim [] fun t => descend t.1 t.2
      by_cases htype : (entry mem addr i &&& ttbEntryTypeMask).setWidth 8 = (3 : BitVec 8)
      · have hchild : (ttbWalker mem check).child n (addr, base) i =
            some (entry mem addr i &&& ttbEntryAddrMask, entryVaddr (2 - n) base i) := if_pos ⟨hval, htype⟩
        rw [hchild, Option.elim_some]
        cases n with
        | zero => rw [hdescend rfl, hdescend rfl, ite_self]
        | succ n => exact if_pos ⟨htype, by omega⟩
      · have hchild : (ttbWalker mem check).child n (addr, base) i = none := if_neg fun h => htype h.2
        rw [hchild, Option.elim_none]
        exact if_neg fun h => htype h.1

/-- **The recursion of the source is a walk over tables.** -/
theorem ucMmuLevelIterate_eq {n : ℕ} (hn : n ≤ 2) (addr base : BitVec 64) :
    ucMmuLevelIterate mem check n addr base = (ttbWalker mem check).walk n (addr, base) := by
  induction n generalizing addr base with
  | zero =>
    rw [ucMmuLevelIterate, ucMmuLevel_eq mem check hn addr base _ (fun _ _ _ => rfl)]
    -- nothing is descended to, so an entry leaves what its visit leaves
    have helim : ∀ i, ((ttbWalker mem check).child 0 (addr, base) i).elim ([] : List WalkCall)
        (fun _ => []) = [] := by
      intro i
      cases (ttbWalker mem check).child 0 (addr, base) i <;> rfl
    simp only [helim, List.append_nil]
    rfl
  | succ n ih =>
    have hrec : ucMmuLevelIterate mem check n = fun addr base => (ttbWalker mem check).walk n (addr, base) := by
      funext addr base
      exact ih (by omega) addr base
    rw [ucMmuLevelIterate, hrec, ucMmuLevel_eq mem check hn addr base _ (by omega)]
    rfl

end Walker

/-! ## Tables in guest DRAM -/

/-- A table that begins behind the first byte of DRAM and ends by the end of the bank. -/
def InDram (t : BitVec 64) : Prop := 0x80000000 < t.toNat ∧ t.toNat + 0x1000 ≤ 0xC0000000

/-- The descriptor that guest DRAM has as entry `i` of a table. -/
def descriptorAt (mem : HostBlock → ℕ → BitVec 8) (t : BitVec 64) (i : ℕ) : BitVec 64 :=
  leWord fun j => mem .dram (t.toNat - 0x80000000 + i * 8 + j)

/-- `TableAt mem root level o t`: the table at `t` is that of the addresses from `o` on, at
a level counted from the root table. -/
inductive TableAt (mem : HostBlock → ℕ → BitVec 8) (root : BitVec 64) : ℕ → ℕ → BitVec 64 → Prop
  | root : TableAt mem root 0 0 root
  | next {level o : ℕ} {t : BitVec 64} {i : ℕ} : TableAt mem root level o t → InDram t → level < 2 →
      i < ttbEntries → descriptorAt mem t i &&& ttbEntryTypeMask = 3 →
      TableAt mem root (level + 1) (o + (ttbVaddrSizes level).toNat * i) (descriptorAt mem t i &&& ttbEntryAddrMask)

/-- A descriptor other than 0: entry `i` of a table in DRAM, for the addresses from `o` on. -/
structure Descriptor (mem : HostBlock → ℕ → BitVec 8) (root : BitVec 64) (level i o : ℕ) (val : BitVec 64) :
    Prop where
  table : ∃ t start, TableAt mem root level start t ∧ InDram t ∧ val = descriptorAt mem t i ∧
    o = start + (ttbVaddrSizes level).toNat * i
  idx : i < ttbEntries
  nonzero : val ≠ 0

theorem opens_iff (mem : HostBlock → ℕ → BitVec 8) (check : BitVec 64) (t : TtbTable) :
    (ttbWalker mem check).opens t = true ↔ 0x80000000 ≤ t.1.toNat ∧ t.1.toNat ≤ 0xC0000000 := by
  have hbase : dramBase.setWidth 64 = (0x80000000 : BitVec 64) := by decide
  have hsize : dramSize.signExtend 64 = (0x40000000 : BitVec 64) := by decide
  have hopens : (ttbWalker mem check).opens t = true ↔
      ¬(t.1 - dramBase.setWidth 64 > dramSize.signExtend 64) := decide_eq_true_iff
  rw [hopens, hbase, hsize]
  constructor <;> intro h <;> bv_omega

theorem paddrToAlloc_inDram {t : BitVec 64} (h : InDram t) :
    paddrToAlloc t = some ⟨.dram, t - 0x80000000⟩ := by
  obtain ⟨hlo, hhi⟩ := h
  rw [paddrToAlloc_eq, if_pos (by bv_omega)]

theorem InDram.opens {t : BitVec 64} (h : InDram t) (mem : HostBlock → ℕ → BitVec 8) (check base : BitVec 64) :
    (ttbWalker mem check).opens (t, base) = true := by
  rw [opens_iff]
  obtain ⟨hlo, hhi⟩ := h
  dsimp only
  omega

/-- What the walk reads in a table in DRAM is the guest's descriptor. -/
theorem entry_eq {t : BitVec 64} (h : InDram t) (mem : HostBlock → ℕ → BitVec 8) (i : ℕ) :
    entry mem t i = descriptorAt mem t i := by
  have hoff : (t - 0x80000000 : BitVec 64).toNat = t.toNat - 0x80000000 := by
    have := h.1
    bv_omega
  unfold entry descriptorAt
  rw [paddrToAlloc_inDram h]
  unfold hostRead
  dsimp only
  rw [hoff]

/-- The offsets of a level's tables stay below `2 ^ 39`. -/
theorem TableAt.bound {mem : HostBlock → ℕ → BitVec 8} {root t : BitVec 64} {level o : ℕ}
    (h : TableAt mem root level o t) : level ≤ 2 ∧ o + (ttbVaddrSizes level).toNat * ttbEntries ≤ 2 ^ 39 := by
  have h512 : ttbEntries = 512 := rfl
  induction h with
  | root => exact ⟨by omega, by decide⟩
  | @next level o t i _ _ hlevel hi _ ih =>
    refine ⟨by omega, ?_⟩
    obtain ⟨-, hbound⟩ := ih
    have hsizes : level = 0 ∨ level = 1 := by omega
    rw [h512] at hbound hi ⊢
    rcases hsizes with rfl | rfl <;> simp [ttbVaddrSizes] at hbound ⊢ <;> omega

theorem ttbVaddrSizes_pos (level : ℕ) : 0 < (ttbVaddrSizes level).toNat := by
  unfold ttbVaddrSizes
  split <;> decide

/-- So do the ranges of its entries. -/
theorem TableAt.entry_end {mem : HostBlock → ℕ → BitVec 8} {root t : BitVec 64} {level o i : ℕ}
    (h : TableAt mem root level o t) (hi : i < ttbEntries) :
    o + (ttbVaddrSizes level).toNat * i + (ttbVaddrSizes level).toNat ≤ 2 ^ 39 := by
  have hbound := h.bound.2
  have hle := Nat.mul_le_mul_left (ttbVaddrSizes level).toNat hi
  rw [Nat.succ_eq_add_one, Nat.mul_add_one] at hle
  omega

theorem TableAt.entry_lt {mem : HostBlock → ℕ → BitVec 8} {root t : BitVec 64} {level o i : ℕ}
    (h : TableAt mem root level o t) (hi : i < ttbEntries) : o + (ttbVaddrSizes level).toNat * i < 2 ^ 39 := by
  have hend := h.entry_end hi
  have hpos := ttbVaddrSizes_pos level
  omega

/-! ## The addresses that entries get -/

/-- The first address of the upper half. -/
def upperHalf : ℕ := 0xffffff8000000000

theorem or_upperHalf {n : ℕ} (hn : n < 2 ^ 39) : n ||| upperHalf = upperHalf + n := by
  have hshift : upperHalf = (2 ^ 25 - 1) <<< 39 := by decide
  rw [hshift, Nat.shiftLeft_add_eq_or_of_lt hn, Nat.or_comm]

theorem upperHalf_or {n : ℕ} (hn : n < 2 ^ 39) : (upperHalf + n) ||| upperHalf = upperHalf + n := by
  rw [← or_upperHalf hn, Nat.or_assoc, Nat.or_self]

/-- An entry of a table for the addresses from `o` on gets its address in the upper half. -/
theorem entryVaddr_toNat {level o i : ℕ} {base : BitVec 64} (hbase : base.toNat = o ∨ base.toNat = upperHalf + o)
    (hlt : o + (ttbVaddrSizes level).toNat * i < 2 ^ 39) (hi : i < ttbEntries) :
    (entryVaddr level base i).toNat = upperHalf + (o + (ttbVaddrSizes level).toNat * i) := by
  have hupper : (0xffffff8000000000 : BitVec 64).toNat = upperHalf := by decide
  have hval : upperHalf = 0xffffff8000000000 := rfl
  have h512 : ttbEntries = 512 := rfl
  have hmul : (ttbVaddrSizes level * BitVec.ofNat 64 i).toNat = (ttbVaddrSizes level).toNat * i := by
    rw [BitVec.toNat_mul, BitVec.toNat_ofNat, Nat.mod_eq_of_lt (a := i) (by omega), Nat.mod_eq_of_lt (by omega)]
  unfold entryVaddr
  rw [BitVec.toNat_or, hupper, BitVec.toNat_add, hmul]
  rcases hbase with h | h
  · rw [h, Nat.mod_eq_of_lt (by omega), or_upperHalf hlt]
  · rw [h, Nat.mod_eq_of_lt (by omega), Nat.add_assoc, upperHalf_or hlt]

/-! ## What the walk comes to, and what it records there -/

section Reach

variable {mem : HostBlock → ℕ → BitVec 8} {check root : BitVec 64}

theorem type_eq_three_iff (val : BitVec 64) :
    (val &&& ttbEntryTypeMask).setWidth 8 = (3 : BitVec 8) ↔ val &&& ttbEntryTypeMask = 3 := by
  have hle : (val &&& ttbEntryTypeMask).toNat ≤ 3 := by
    rw [BitVec.toNat_and]
    exact Nat.and_le_right
  constructor <;> intro h <;> bv_omega

/-- An entry leads to a table exactly if it is a table descriptor. -/
theorem child_eq_some_iff {n i : ℕ} {t t' : TtbTable} : (ttbWalker mem check).child n t i = some t' ↔
    entry mem t.1 i &&& ttbEntryTypeMask = 3 ∧
      t' = (entry mem t.1 i &&& ttbEntryAddrMask, entryVaddr (2 - n) t.2 i) := by
  have hzero : entry mem t.1 i &&& ttbEntryTypeMask = 3 → entry mem t.1 i ≠ 0 := by
    intro h h0
    rw [h0] at h
    exact absurd h (by decide)
  unfold ttbWalker
  dsimp only
  rw [Option.ite_none_right_eq_some, type_eq_three_iff, Option.some.injEq]
  constructor
  · rintro ⟨⟨-, htype⟩, rfl⟩
    exact ⟨htype, rfl⟩
  · rintro ⟨htype, rfl⟩
    exact ⟨⟨hzero htype, htype⟩, rfl⟩

/-- **The walk comes to every table** of the address space, and knows where it starts. -/
theorem reach_of_tableAt (check : BitVec 64) {level o : ℕ} {t : BitVec 64} (h : TableAt mem root level o t) :
    ∃ base, (ttbWalker mem check).Reach 2 (root, 0) (2 - level) (t, base) ∧
      (base.toNat = o ∨ base.toNat = upperHalf + o) := by
  induction h with
  | root => exact ⟨0, .root, .inl rfl⟩
  | @next level o t i htable hin hlevel hi htype ih =>
    obtain ⟨base, hreach, hbase⟩ := ih
    have hsucc : 2 - level = 2 - (level + 1) + 1 := by omega
    have hback : 2 - (2 - (level + 1) + 1) = level := by omega
    rw [hsucc] at hreach
    have hchild : (ttbWalker mem check).child (2 - (level + 1) + 1) (t, base) i =
        some (descriptorAt mem t i &&& ttbEntryAddrMask, entryVaddr level base i) := by
      rw [child_eq_some_iff, entry_eq hin, hback]
      exact ⟨htype, rfl⟩
    refine ⟨entryVaddr level base i, hreach.child (hin.opens mem check base) hi hchild, .inr ?_⟩
    exact entryVaddr_toNat hbase (htable.entry_lt hi) hi

/-- **The walk comes to nothing else**, as long as it comes to no table at an end of DRAM. -/
theorem tableAt_of_reach
    (hin : ∀ level o t, TableAt mem root level o t → 0x80000000 ≤ t.toNat → t.toNat ≤ 0xC0000000 → InDram t)
    {m : ℕ} {t : TtbTable} (h : (ttbWalker mem check).Reach 2 (root, 0) m t) :
    m ≤ 2 ∧ ∃ o, TableAt mem root (2 - m) o t.1 ∧ (t.2.toNat = o ∨ t.2.toNat = upperHalf + o) := by
  induction h with
  | root => exact ⟨le_rfl, 0, .root, .inl rfl⟩
  | @child m t t' i _ hopens hi hchild ih =>
    obtain ⟨hm, o, htable, hbase⟩ := ih
    obtain ⟨hlo, hhi⟩ := (opens_iff mem check t).1 hopens
    have hdram := hin _ _ _ htable hlo hhi
    obtain ⟨htype, rfl⟩ := child_eq_some_iff.1 hchild
    rw [entry_eq hdram] at htype ⊢
    have hnext := TableAt.next htable hdram (by omega) hi htype
    have hlevel : 2 - (m + 1) + 1 = 2 - m := by omega
    rw [hlevel] at hnext
    exact ⟨by omega, _, hnext, .inr (entryVaddr_toNat hbase (htable.entry_lt hi) hi)⟩

/-- The lines printed for a table's entries. -/
theorem line_mem_records {m : ℕ} {t : TtbTable} {l : TtbLine} :
    .line l ∈ (ttbWalker mem check).records m t ↔
      (ttbWalker mem check).opens t = true ∧ ∃ i < ttbEntries, entry mem t.1 i ≠ 0 ∧
        Tested check (entryVaddr (2 - m) t.2 i) ∧
        l = ttbLine (2 - m) i (entryVaddr (2 - m) t.2 i) (entry mem t.1 i) := by
  have hvisit : ∀ i, .line l ∈ (ttbWalker mem check).visit m t i ↔ entry mem t.1 i ≠ 0 ∧
      Tested check (entryVaddr (2 - m) t.2 i) ∧
      l = ttbLine (2 - m) i (entryVaddr (2 - m) t.2 i) (entry mem t.1 i) := by
    intro i
    unfold ttbWalker
    dsimp only
    by_cases h : entry mem t.1 i ≠ 0 ∧ Tested check (entryVaddr (2 - m) t.2 i)
    · rw [if_pos h, and_iff_right h.1, and_iff_right h.2]
      simp
    · rw [if_neg h]
      simp only [List.mem_singleton, reduceCtorEq, false_iff]
      exact fun h' => h ⟨h'.1, h'.2.1⟩
  rw [Tables.Walker.mem_records (by simp [ttbWalker])]
  exact and_congr_right' (exists_congr fun i => and_congr_right' (hvisit i))

/-- The reads of a table's entries. -/
theorem read_mem_records {m : ℕ} {t : TtbTable} {ptr : Option HostPtr} {off : ℕ} :
    .read ptr off ∈ (ttbWalker mem check).records m t ↔
      (ttbWalker mem check).opens t = true ∧ ∃ i < ttbEntries, ptr = paddrToAlloc t.1 ∧ off = i * 8 := by
  have hvisit : ∀ i, .read ptr off ∈ (ttbWalker mem check).visit m t i ↔
      ptr = paddrToAlloc t.1 ∧ off = i * 8 := by
    intro i
    unfold ttbWalker
    dsimp only
    rw [List.mem_cons, WalkCall.read.injEq, or_iff_left]
    split <;> simp
  rw [Tables.Walker.mem_records (by simp [ttbWalker])]
  exact and_congr_right' (exists_congr fun i => and_congr_right' (hvisit i))

end Reach

end Mooooooo
