import Mooooooo.Lib.Regions
import Mooooooo.Spec.Gic

/-!
# The host and the engines' memory maps

The globals of `main.cpp` that the run loop touches, `paddr_to_alloc`, and what
`uc_init` maps into an engine.

`unsigned int` constants are 32-bit words, widened with zeros; `int` constants are
32-bit words, widened with their sign. The engine itself is not part of the source:
`uc_mem_map_ptr` and `uc_mmio_map` add a range unless it overlaps a mapped one, and
`uc_mem_unmap` removes exactly the range it is given.
-/

namespace Mooooooo

/-! ## Host memory -/

/-- The blocks that `mem_init` allocates. -/
inductive HostBlock
  | dram | dram2 | dram3 | dram4 | iram | tzram
deriving DecidableEq, Repr

/-- A bank of guest DRAM. -/
def HostBlock.isDram : HostBlock → Bool
  | .dram | .dram2 | .dram3 | .dram4 => true
  | .iram | .tzram => false

/-- A pointer into a block. -/
structure HostPtr where
  block : HostBlock
  off : BitVec 64
deriving DecidableEq, Repr

/-- `DRAM`, an `unsigned int`. -/
def dramBase : BitVec 32 := 0x80000000
/-- `DRAM_SIZE`, an `int`. -/
def dramSize : BitVec 32 := 0x40000000 * 1
/-- `IRAM`, an `int`. -/
def iramBase : BitVec 32 := 0x40000000
def iramSize : BitVec 32 := 0x00040000
/-- `TZRAM`, an `int`. -/
def tzramBase : BitVec 32 := 0x7C010000
def tzramSize : BitVec 32 := 0x10000

def paddrToAlloc (addr : BitVec 64) : Option HostPtr :=
  if dramBase.setWidth 64 < addr ∧ addr ≤ (dramBase + dramSize).setWidth 64 then
    some ⟨.dram, addr - dramBase.setWidth 64⟩
  else if (dramBase + dramSize * 1).setWidth 64 < addr ∧ addr ≤ (dramBase + dramSize * 2).setWidth 64 then
    some ⟨.dram2, addr - dramBase.setWidth 64 - (dramSize * 1).signExtend 64⟩
  else if (dramBase + dramSize * 2).setWidth 64 < addr ∧ addr ≤ (dramBase + dramSize * 3).setWidth 64 then
    some ⟨.dram3, addr - dramBase.setWidth 64 - (dramSize * 2).signExtend 64⟩
  else if (dramBase + dramSize * 3).setWidth 64 < addr ∧ addr ≤ (dramBase + dramSize * 4).setWidth 64 then
    some ⟨.dram4, addr - dramBase.setWidth 64 - (dramSize * 3).signExtend 64⟩
  else none

/-! ## Engines -/

/-- The MMIO windows. -/
inductive Device
  | timer | host1x | system | mselect | gicd | gicc | mc | mc0 | mc1 | car | pinmux | uart
deriving DecidableEq, Repr

/-- What a mapped range is backed by. -/
inductive Backing
  | host (block : HostBlock)
  | mmio (dev : Device)
deriving DecidableEq, Repr

/-- The memory map of one engine. -/
abbrev MemMap := Table ℕ Backing

/-- The globals of `main.cpp`, the interrupt controller, and the engines' memory maps. -/
structure Host where
  regions : Core → MemMap
  mem : HostBlock → ℕ → BitVec 8
  gic : GicState
  ucQuit : Bool
  coresOnline : Core → Bool

/-- The range `[addr, addr + size)` backed by `back` from its start. -/
def mapping (addr size : BitVec 64) (back : Backing) : Region ℕ Backing :=
  ⟨addr.toNat, addr.toNat + size.toNat, addr.toNat, back⟩

/-- The memory map with a range added, and whether that succeeded. -/
def MemMap.mapRange (t : MemMap) (addr size : BitVec 64) (back : Backing) : MemMap × Bool :=
  match t.add (mapping addr size back) with
  | some t' => (t', true)
  | none => (t, false)

/-- The memory map without the addresses `[addr, addr + size)`. -/
def MemMap.unmapRange (t : MemMap) (addr size : BitVec 64) : MemMap := t.cut addr.toNat (addr.toNat + size.toNat)

/-- `uc_mmio_map` on the engine of a core. -/
def ucMmioMap (core : Core) (addr size : BitVec 64) (dev : Device) (h : Host) : Host :=
  { h with regions := Function.update h.regions core ((h.regions core).mapRange addr size (.mmio dev)).1 }

/-- `uc_mem_map_ptr` on the engine of a core, and whether it succeeded. -/
def ucMemMapPtr (core : Core) (addr size : BitVec 64) (block : HostBlock) (h : Host) : Host × Bool :=
  let r := (h.regions core).mapRange addr size (.host block)
  ({ h with regions := Function.update h.regions core r.1 }, r.2)

/-- `uc_mem_unmap` on the engine of a core. -/
def ucMemUnmap (core : Core) (addr size : BitVec 64) (h : Host) : Host :=
  { h with regions := Function.update h.regions core ((h.regions core).unmapRange addr size) }

/-! ## `uc_init` -/

def mmioTimerInit (core : Core) : Host → Host := ucMmioMap core 0x60005000 0x400 .timer
def mmioHost1xInit (core : Core) : Host → Host := ucMmioMap core 0x50000000 0x40000 .host1x
def mmioSystemInit (core : Core) : Host → Host := ucMmioMap core 0x6000C000 0x800 .system
def mmioMselectInit (core : Core) : Host → Host := ucMmioMap core 0x50060000 0x1000 .mselect
def mmioGicdInit (core : Core) : Host → Host := ucMmioMap core 0x50041000 0x1000 .gicd
/-- `mmio_gicc_init`: the state in `mmioGiccInit`, and the window. -/
def mmioGiccInitMap (core : Core) (h : Host) : Host :=
  ucMmioMap core 0x50042000 0x2000 .gicc { h with gic := mmioGiccInit h.gic }
def mmioMcInit (core : Core) (h : Host) : Host :=
  ucMmioMap core 0x7001D000 0x1000 .mc1
    (ucMmioMap core 0x7001C000 0x1000 .mc0 (ucMmioMap core 0x70019000 0x1000 .mc h))
def mmioCarInit (core : Core) : Host → Host := ucMmioMap core 0x60006000 0x1000 .car
def mmioPinmuxInit (core : Core) : Host → Host := ucMmioMap core 0x70003000 0x1000 .pinmux
def mmioUartInit (core : Core) : Host → Host := ucMmioMap core 0x70006000 0x1000 .uart

def ucInit (core : Core) (h : Host) : Host :=
  let h := mmioTimerInit core h
  let h := mmioHost1xInit core h
  let h := mmioSystemInit core h
  let h := mmioMselectInit core h
  let h := mmioGicdInit core h
  let h := mmioGiccInitMap core h
  let h := mmioMcInit core h
  let h := mmioCarInit core h
  let h := mmioPinmuxInit core h
  let h := mmioUartInit core h
  let h := (ucMemMapPtr core (iramBase.signExtend 64) (iramSize.signExtend 64) .iram h).1
  (ucMemMapPtr core (tzramBase.signExtend 64) (tzramSize.signExtend 64) .tzram h).1

/-- Static storage, with the blocks that `mem_init` allocated and filled. -/
def Host.zero (mem : HostBlock → ℕ → BitVec 8) : Host :=
  ⟨fun _ => [], mem, GicState.zero, false, fun _ => false⟩

/-- After the four `uc_init` calls of `main`. -/
def Host.init (mem : HostBlock → ℕ → BitVec 8) : Host :=
  coreList.foldl (fun h i => ucInit i h) (Host.zero mem)

/-! ## Guest memory -/

/-- What the guest of a core finds at an address: a backing, and the offset in it. -/
def Host.lookup (h : Host) (core : Core) (addr : BitVec 64) : Option (Backing × ℕ) :=
  ((h.regions core).find addr.toNat).map fun r => (r.back, addr.toNat - r.org)

/-- The byte of host memory that the guest of a core reads at an address. -/
def Host.readByte (h : Host) (core : Core) (addr : BitVec 64) : Option (BitVec 8) :=
  match h.lookup core addr with
  | some (.host block, off) => some (h.mem block off)
  | _ => none

/-- The guest of a core writes a byte at an address; only host memory keeps it. -/
def Host.writeByte (h : Host) (core : Core) (addr : BitVec 64) (byte : BitVec 8) : Host :=
  match h.lookup core addr with
  | some (.host block, off) =>
    { h with mem := Function.update h.mem block (Function.update (h.mem block) off byte) }
  | _ => h

end Mooooooo
