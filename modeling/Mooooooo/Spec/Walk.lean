import Mooooooo.Spec.Memory

/-!
# The walk of the page tables

`uc_mmu_walk` and the recursion it starts at the two translation table registers. The
registers' values and the contents of host memory are inputs; a walk is what it reads and
prints, oldest first.

`level` counts up to 2; the model counts down the levels below.
-/

namespace Mooooooo

def ttbEntryAttrMask : BitVec 64 := 0xFFF0000000000000
def ttbEntryAttrShift : ℕ := 52
def ttbEntryLowerAttrMask : BitVec 64 := 0x00000000000007FC
def ttbEntryAddrMask : BitVec 64 := 0x00007FFFFFFFF800
def ttbEntryTypeMask : BitVec 64 := 0x0000000000000003
def ttbEntries : ℕ := 0x1000 / 8

/-- `ttb_vaddr_sizes`, by `level`. -/
def ttbVaddrSizes : ℕ → BitVec 64
  | 0 => 0x40000000
  | 1 => 0x200000
  | _ => 0x1000

/-- The line printed for a descriptor. -/
structure TtbLine where
  lv : ℕ
  idx : ℕ
  vaddr : BitVec 64
  type : BitVec 8
  addr : BitVec 64
  low : BitVec 16
  high : BitVec 16
deriving DecidableEq, Repr

/-- What the walk does: the headings, the line of an address it refuses, the 8 bytes it
reads at a pointer, and the line of a descriptor. -/
inductive WalkCall
  | ttbr0
  | ttbr1
  | bad (level : ℕ) (addr : BitVec 64)
  | read (ptr : Option HostPtr) (off : ℕ)
  | line (l : TtbLine)
deriving DecidableEq, Repr

/-- Eight bytes, the lowest first. -/
def leWord (byte : ℕ → BitVec 8) : BitVec 64 :=
  (List.range 8).foldr (fun j acc => acc <<< 8 ||| (byte j).setWidth 64) 0

/-- `*(uint64_t*)(ptr + off)`. `mem` also says what is behind the end of a block; the null
pointer reads as 0 here. -/
def hostRead (mem : HostBlock → ℕ → BitVec 8) (ptr : Option HostPtr) (off : ℕ) : BitVec 64 :=
  match ptr with
  | some p => leWord fun j => mem p.block (p.off.toNat + off + j)
  | none => 0

/-- The eight bytes at `ptr + off` are inside one bank of guest DRAM. -/
def InBank (ptr : Option HostPtr) (off : ℕ) : Prop :=
  ∃ p, ptr = some p ∧ p.block.isDram = true ∧ p.off.toNat + off + 8 ≤ dramSize.toNat

instance (ptr : Option HostPtr) (off : ℕ) : Decidable (InBank ptr off) :=
  match ptr with
  | none => isFalse fun h => nomatch h.choose_spec.1
  | some p => decidable_of_iff (p.block.isDram = true ∧ p.off.toNat + off + 8 ≤ dramSize.toNat)
      ⟨fun h => ⟨p, rfl, h⟩, fun ⟨_, h, h'⟩ => Option.some.inj h ▸ h'⟩

/-- What `printf` is given for a descriptor. -/
def ttbLine (level i : ℕ) (vaddr val : BitVec 64) : TtbLine where
  lv := level + 1
  idx := i
  vaddr := vaddr
  type := (val &&& ttbEntryTypeMask).setWidth 8
  addr := val &&& ttbEntryAddrMask
  low := ((val &&& ttbEntryLowerAttrMask) >>> 2).setWidth 16
  high := ((val &&& ttbEntryAttrMask) >>> ttbEntryAttrShift).setWidth 16

/-- The body of `uc_mmu_level_iterate`; `descend` is the recursive call. -/
def ucMmuLevel (mem : HostBlock → ℕ → BitVec 8) (check : BitVec 64) (level : ℕ) (addr base : BitVec 64)
    (descend : BitVec 64 → BitVec 64 → List WalkCall) : List WalkCall :=
  if addr - dramBase.setWidth 64 > dramSize.signExtend 64 then [.bad level addr]
  else
    (List.range ttbEntries).flatMap fun i =>
      let val := hostRead mem (paddrToAlloc addr) (i * 8)
      let valAddr := val &&& ttbEntryAddrMask
      let valType := (val &&& ttbEntryTypeMask).setWidth 8
      let vaddr := base + ttbVaddrSizes level * BitVec.ofNat 64 i ||| 0xffffff8000000000
      .read (paddrToAlloc addr) (i * 8) ::
        if val ≠ 0 then
          (if check = 0 ∨ check ≥ vaddr ∧ check ≤ vaddr + 0x1000 then [.line (ttbLine level i vaddr val)]
            else []) ++
          if valType = (3 : BitVec 8) ∧ level < 2 then descend valAddr vaddr else []
        else []

/-- `uc_mmu_level_iterate` with `below` levels below. -/
def ucMmuLevelIterate (mem : HostBlock → ℕ → BitVec 8) (check : BitVec 64) :
    ℕ → BitVec 64 → BitVec 64 → List WalkCall
  | 0, addr, base => ucMmuLevel mem check 2 addr base fun _ _ => []
  | below + 1, addr, base =>
    ucMmuLevel mem check (2 - (below + 1)) addr base (ucMmuLevelIterate mem check below)

/-- `uc_mmu_walk(uc, addr)`, where the engine has `ttbr0` and `ttbr1`. -/
def ucMmuWalk (mem : HostBlock → ℕ → BitVec 8) (ttbr0 ttbr1 addr : BitVec 64) : List WalkCall :=
  .ttbr0 :: ucMmuLevelIterate mem addr 2 (ttbr0 &&& 0xFFFFFFFF) 0 ++
    .ttbr1 :: ucMmuLevelIterate mem addr 2 (ttbr1 &&& 0xFFFFFFFF) 0

end Mooooooo
