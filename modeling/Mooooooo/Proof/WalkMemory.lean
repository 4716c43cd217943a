import Mooooooo.Proof.Exception
import Mooooooo.Proof.Memory
import Mooooooo.Proof.Translation

/-!
# The tables that the hooks walk

`hook_mem_invalid` and `hook_exception` print the page tables of the guests. They read them
in host memory, past the maps of any engine; the guests write them like other memory.

* `walk_same`: a walk depends on the first bank of DRAM only, where its tables are there.
* `walk_agrees`: **such a walk reads the array** that all guests see.
-/

namespace Mooooooo

/-! ## Walks over equal memories -/

section Agree

variable {mem mem' : HostBlock → ℕ → BitVec 8}

/-- The two memories have the same first bank. -/
def SameDram (mem mem' : HostBlock → ℕ → BitVec 8) : Prop := ∀ x < 0x40000000, mem' .dram x = mem .dram x

theorem descriptorAt_same (h : SameDram mem mem') {t : BitVec 64} (hin : InDram t) {i : ℕ} (hi : i < ttbEntries) :
    descriptorAt mem' t i = descriptorAt mem t i := by
  have h512 : ttbEntries = 512 := rfl
  obtain ⟨hlo, hhi⟩ := hin
  unfold descriptorAt leWord
  apply List.foldr_ext
  intro j hj acc
  have hlt := List.mem_range.1 hj
  dsimp only
  rw [h _ (by omega)]

/-- The tables of an address space depend on the first bank only. -/
theorem TableAt.same (h : SameDram mem mem') {root t : BitVec 64} {level o : ℕ} (ht : TableAt mem root level o t) :
    TableAt mem' root level o t := by
  induction ht with
  | root => exact .root
  | next htable hin hlevel hi htype ih =>
    rw [← descriptorAt_same h hin hi] at htype ⊢
    exact .next ih hin hlevel hi htype

theorem TablesInDram.same (h : SameDram mem mem') {root : BitVec 64} (hin : TablesInDram mem' root) :
    TablesInDram mem root := fun level o t ht => hin level o t (ht.same h)

/-- The walk from one root reads the first bank only, as long as its tables are there. -/
theorem iterate_same (h : SameDram mem mem') (check : BitVec 64) {root : BitVec 64} (hin : TablesInDram mem root) :
    ucMmuLevelIterate mem' check 2 root 0 = ucMmuLevelIterate mem check 2 root 0 := by
  rw [ucMmuLevelIterate_eq mem' check le_rfl, ucMmuLevelIterate_eq mem check le_rfl]
  refine Tables.Walker.walk_congr rfl (fun _ _ _ => ⟨rfl, rfl⟩) fun m t hreach hopens i hi => ?_
  obtain ⟨-, o, htable, -⟩ := tableAt_of_reach hin hreach
  obtain ⟨hlo, hhi⟩ := (opens_iff mem check t).1 hopens
  have hdram := hin _ _ _ htable hlo hhi
  have hentry : entry mem' t.1 i = entry mem t.1 i := by
    rw [entry_eq hdram, entry_eq hdram, descriptorAt_same h hdram hi]
  unfold ttbWalker
  dsimp only
  rw [hentry]
  exact ⟨rfl, rfl⟩

theorem walk_same (h : SameDram mem mem') {ttbr0 ttbr1 : BitVec 64} (check : BitVec 64)
    (h0 : TablesInDram mem (ttbr0 &&& 0xFFFFFFFF)) (h1 : TablesInDram mem (ttbr1 &&& 0xFFFFFFFF)) :
    ucMmuWalk mem' ttbr0 ttbr1 check = ucMmuWalk mem ttbr0 ttbr1 check := by
  unfold ucMmuWalk
  rw [iterate_same h check h0, iterate_same h check h1]

end Agree

/-! ## Walks over the array -/

/-- The first bank of DRAM, as the guests see it. -/
def flatDram (flat : BitVec 64 → Option (BitVec 8)) : HostBlock → ℕ → BitVec 8
  | .dram, x => (flat (0x80000000 + BitVec.ofNat 64 x)).getD 0
  | _, _ => 0

theorem sameDram_flat (mem : HostBlock → ℕ → BitVec 8) : SameDram mem (flatDram (flatMem mem)) := by
  intro x hx
  have haddr : (0x80000000 + BitVec.ofNat 64 x : BitVec 64).toNat = 0x80000000 + x := by
    have hbase : (0x80000000 : BitVec 64).toNat = 0x80000000 := by decide
    rw [BitVec.toNat_add, BitVec.toNat_ofNat, hbase]
    omega
  have hcell : guestCells.cell (0x80000000 + BitVec.ofNat 64 x) = some (.dram, x) := by
    rw [cell_dram, haddr]
    omega
  have hflat : flatMem mem (0x80000000 + BitVec.ofNat 64 x) =
      (guestCells.cell (0x80000000 + BitVec.ofNat 64 x)).map fun c => mem c.1 c.2 := rfl
  show (flatMem mem (0x80000000 + BitVec.ofNat 64 x)).getD 0 = mem .dram x
  rw [hflat, hcell]
  rfl

/-- **A walk over the first bank reads the array** that guests see. -/
theorem walk_agrees (mem : HostBlock → ℕ → BitVec 8) {ttbr0 ttbr1 : BitVec 64} (check : BitVec 64)
    (h0 : TablesInDram (flatDram (flatMem mem)) (ttbr0 &&& 0xFFFFFFFF))
    (h1 : TablesInDram (flatDram (flatMem mem)) (ttbr1 &&& 0xFFFFFFFF)) :
    ucMmuWalk mem ttbr0 ttbr1 check = ucMmuWalk (flatDram (flatMem mem)) ttbr0 ttbr1 check :=
  (walk_same (sameDram_flat mem) check (h0.same (sameDram_flat mem)) (h1.same (sameDram_flat mem))).symm

/-- A walk over the first bank does not fault. -/
theorem walkReached_of_tables {mem : HostBlock → ℕ → BitVec 8} {ttbr0 ttbr1 check : BitVec 64}
    (h0 : TablesInDram mem (ttbr0 &&& 0xFFFFFFFF)) (h1 : TablesInDram mem (ttbr1 &&& 0xFFFFFFFF)) :
    walkReached (ucMmuWalk mem ttbr0 ttbr1 check) = ucMmuWalk mem ttbr0 ttbr1 check := by
  refine walkReached_eq ((walkFault_eq_none_iff _).2 fun ptr off hread => ?_)
  unfold ucMmuWalk at hread
  simp only [List.cons_append, List.mem_cons, List.mem_append, reduceCtorEq, false_or] at hread
  rcases hread with hread | hread
  · exact (iterate_in_dram_iff mem check _).2 h0 ptr off hread
  · exact (iterate_in_dram_iff mem check _).2 h1 ptr off hread

end Mooooooo
