import Mooooooo.Spec.Walk

/-!
# The recursion of the walk

`uc_mmu_level_iterate` with `level` counting up, as the source has it, and what it computes
for every entry that it comes to, printed or not. The words that it reads are an input.

The recursion has fuel, and ends in `none` where it goes deeper.
-/

namespace Mooooooo

/-- The variables of the loop body for an entry: the entry at `idx` of the table that the
indices in `path` lead to. -/
structure TtbVisit where
  level : ℕ
  path : List ℕ
  idx : ℕ
  ptr : Option HostPtr
  base : BitVec 64
  vaddr : BitVec 64
  val : BitVec 64

/-- An address that is refused, or an entry. -/
inductive LevelStep
  | bad (level : ℕ) (addr : BitVec 64)
  | visit (v : TtbVisit)

/-- `uc_mmu_level_iterate(uc, addr, base, level, check)`, without what it prints. -/
def ucMmuLevelSteps (read : Option HostPtr → ℕ → BitVec 64) :
    ℕ → BitVec 64 → BitVec 64 → ℕ → List ℕ → Option (List LevelStep)
  | 0, _, _, _, _ => none
  | fuel + 1, addr, base, level, path =>
    if addr - dramBase.setWidth 64 > dramSize.signExtend 64 then some [.bad level addr]
    else do
      let entries ← (List.range ttbEntries).mapM fun i => do
        let val := read (paddrToAlloc addr) (i * 8)
        let valAddr := val &&& ttbEntryAddrMask
        let valType := (val &&& ttbEntryTypeMask).setWidth 8
        let vaddr := base + ttbVaddrSizes level * BitVec.ofNat 64 i ||| 0xffffff8000000000
        let below ←
          if val ≠ 0 ∧ valType = (3 : BitVec 8) ∧ level < 2 then
            ucMmuLevelSteps read fuel valAddr vaddr (level + 1) (path ++ [i])
          else some []
        return .visit ⟨level, path, i, paddrToAlloc addr, base, vaddr, val⟩ :: below
      return entries.flatten

end Mooooooo
