import Mathlib.Tactic

/-!
# The interrupt controller's register banks

The two register structs of one core (`struct gicd_regs`, `struct gicc_regs`) with
their layout, and the register cases of the four MMIO callbacks: what an access does
to the bank of the core that makes it. The cases with an effect beyond the bank
(`GICD_SGIR`, `GICC_IAR`, `GICC_EOIR`) are in `Spec/Gic.lean`.

A bank is the memory of its struct: a word for every byte offset. An array element
is the word at the array's offset plus four times the index, as in C, so an index
past the array's end is a word of a later member.
-/

namespace Mooooooo

/-- The four cores. -/
abbrev Core := Fin 4

/-- The members of a struct with their sizes in bytes, in the order of declaration. -/
class Layout (φ : Type) where
  members : List (φ × ℕ)

/-- Where a member starts: after all that are declared before it. -/
def fieldOffset {φ : Type} [DecidableEq φ] [Layout φ] (f : φ) : ℕ :=
  (((Layout.members : List (φ × ℕ)).takeWhile fun m => m.1 ≠ f).map Prod.snd).sum

/-- The memory of a struct with members `φ`: a word for every byte offset. -/
structure Bank (φ : Type) where
  words : ℕ → BitVec 32

namespace Bank

variable {φ : Type} [DecidableEq φ] [Layout φ]

/-- Static storage starts as zero. -/
def zero : Bank φ := ⟨fun _ => 0⟩

/-- `regs.f[index]`; a member that is not an array has index 0. -/
def get (regs : Bank φ) (f : φ) (index : ℕ) : BitVec 64 :=
  (regs.words (fieldOffset f + 4 * index)).setWidth 64

/-- `regs.f[index] = data`. -/
def set (regs : Bank φ) (f : φ) (index : ℕ) (data : BitVec 64) : Bank φ :=
  ⟨Function.update regs.words (fieldOffset f + 4 * index) (data.setWidth 32)⟩

end Bank

/-! ## `struct gicd_regs` -/

/-- The members of `struct gicd_regs`. -/
inductive GicdField
  | ctlr | typer | iidr | rsvd1 | igroupr | isenabler | icenabler | ispendr | icpendr
  | isactiver | icactiver | ipriorityr | rsvd2 | itargetsr | rsvd3 | icfgr | rsvd4 | nsacr
  | sgir | rsvd5 | cpendsgir | spendsgir | rsvd6 | icpidr2 | rsvd7
deriving DecidableEq, Repr

instance : Layout GicdField where
  members := [(.ctlr, 4), (.typer, 4), (.iidr, 4), (.rsvd1, 0x74), (.igroupr, 4 * 0x20),
    (.isenabler, 4 * 0x20), (.icenabler, 4 * 0x20), (.ispendr, 4 * 0x20), (.icpendr, 4 * 0x20),
    (.isactiver, 4 * 0x20), (.icactiver, 4 * 0x20), (.ipriorityr, 4 * 0xFF), (.rsvd2, 4),
    (.itargetsr, 4 * 0xFF), (.rsvd3, 4), (.icfgr, 4 * 0x40), (.rsvd4, 0x100), (.nsacr, 4 * 0x40),
    (.sgir, 4), (.rsvd5, 0xC), (.cpendsgir, 4 * 4), (.spendsgir, 4 * 4), (.rsvd6, 0xB8),
    (.icpidr2, 4), (.rsvd7, 0x14)]

/-- One core's `struct gicd_regs`. -/
abbrev GicdRegs := Bank GicdField

-- the offsets the source notes beside the members
example : [GicdField.igroupr, .ipriorityr, .itargetsr, .nsacr, .spendsgir, .icpidr2].map fieldOffset =
    [0x080, 0x400, 0x800, 0xE00, 0xF20, 0xFE8] := by decide

def gicdCtlr : BitVec 64 := 0x000
def gicdTyper : BitVec 64 := 0x004
def gicdIidr : BitVec 64 := 0x008
def gicdIgroupr : BitVec 64 := 0x080
def gicdIgrouprEnd : BitVec 64 := 0x100 - 1
def gicdIsenabler : BitVec 64 := 0x100
def gicdIsenablerEnd : BitVec 64 := 0x180 - 1
def gicdIcenabler : BitVec 64 := 0x180
def gicdIcenablerEnd : BitVec 64 := 0x200 - 1
def gicdIspendr : BitVec 64 := 0x200
def gicdIspendrEnd : BitVec 64 := 0x280 - 1
def gicdIcpendr : BitVec 64 := 0x280
def gicdIcpendrEnd : BitVec 64 := 0x300 - 1
def gicdIsactiver : BitVec 64 := 0x300
def gicdIsactiverEnd : BitVec 64 := 0x380 - 1
def gicdIcactiver : BitVec 64 := 0x380
def gicdIcactiverEnd : BitVec 64 := 0x400 - 1
def gicdIpriorityr : BitVec 64 := 0x400
def gicdIpriorityrEnd : BitVec 64 := 0x7FC - 1
def gicdItargetsr : BitVec 64 := 0x800
def gicdItargetsrEnd : BitVec 64 := 0xBFC - 1
def gicdIcfgr : BitVec 64 := 0xC00
def gicdIcfgrEnd : BitVec 64 := 0xD00 - 1
def gicdNsacr : BitVec 64 := 0xE00
def gicdNsacrEnd : BitVec 64 := 0xF00 - 1
def gicdSgir : BitVec 64 := 0xF00
def gicdCpendsgir : BitVec 64 := 0xF10
def gicdCpendsgirEnd : BitVec 64 := 0xF20 - 1
def gicdSpendsgir : BitVec 64 := 0xF20
def gicdSpendsgirEnd : BitVec 64 := 0xF30 - 1
def gicdIcpidr2 : BitVec 64 := 0xFE8

/-- `index = (addr - base) / 4`. -/
def regIndex (addr base : BitVec 64) : ℕ := ((addr - base) / 4).toNat

/-- The register cases of `mmio_gicd_read`, on the bank of the reading core. -/
def GicdRegs.read (regs : GicdRegs) (addr : BitVec 64) : BitVec 64 :=
  if addr = gicdCtlr then regs.get .ctlr 0
  else if addr = gicdTyper then 6 ||| (3 <<< 5) ||| (1 <<< 10) ||| (0x1F <<< 11)
  else if addr = gicdIidr then 0x0200143B
  else if gicdIgroupr ≤ addr ∧ addr ≤ gicdIgrouprEnd then regs.get .igroupr (regIndex addr gicdIgroupr)
  else if gicdIsenabler ≤ addr ∧ addr ≤ gicdIsenablerEnd then
    regs.get .isenabler (regIndex addr gicdIsenabler)
  else if gicdIcenabler ≤ addr ∧ addr ≤ gicdIcenablerEnd then
    regs.get .icenabler (regIndex addr gicdIcenabler)
  else if gicdIspendr ≤ addr ∧ addr ≤ gicdIspendrEnd then regs.get .ispendr (regIndex addr gicdIspendr)
  else if gicdIcpendr ≤ addr ∧ addr ≤ gicdIcpendrEnd then regs.get .icpendr (regIndex addr gicdIcpendr)
  else if gicdIsactiver ≤ addr ∧ addr ≤ gicdIsactiverEnd then
    regs.get .isactiver (regIndex addr gicdIsactiver)
  else if gicdIcactiver ≤ addr ∧ addr ≤ gicdIcactiverEnd then
    regs.get .icactiver (regIndex addr gicdIcactiver)
  else if gicdIpriorityr ≤ addr ∧ addr ≤ gicdIpriorityrEnd then
    regs.get .ipriorityr (regIndex addr gicdIpriorityr)
  else if gicdItargetsr ≤ addr ∧ addr ≤ gicdItargetsrEnd then
    regs.get .itargetsr (regIndex addr gicdItargetsr)
  else if gicdIcfgr ≤ addr ∧ addr ≤ gicdIcfgrEnd then regs.get .icfgr (regIndex addr gicdIcfgr)
  else if gicdNsacr ≤ addr ∧ addr ≤ gicdNsacrEnd then regs.get .nsacr (regIndex addr gicdNsacr)
  else if addr = gicdSgir then 0
  else if gicdCpendsgir ≤ addr ∧ addr ≤ gicdCpendsgirEnd then
    regs.get .cpendsgir (regIndex addr gicdCpendsgir)
  else if gicdSpendsgir ≤ addr ∧ addr ≤ gicdSpendsgirEnd then
    regs.get .spendsgir (regIndex addr gicdSpendsgir)
  else if addr = gicdIcpidr2 then regs.get .icpidr2 0
  else 0

/-- The register cases of `mmio_gicd_write`, on the bank of the writing core. -/
def GicdRegs.write (regs : GicdRegs) (addr data : BitVec 64) : GicdRegs :=
  if addr = gicdCtlr then regs.set .ctlr 0 data
  else if addr = gicdTyper then regs
  else if addr = gicdIidr then regs
  else if gicdIgroupr ≤ addr ∧ addr ≤ gicdIgrouprEnd then
    regs.set .igroupr (regIndex addr gicdIgroupr) data
  else if gicdIsenabler ≤ addr ∧ addr ≤ gicdIsenablerEnd then
    regs.set .isenabler (regIndex addr gicdIsenabler) data
  else if gicdIcenabler ≤ addr ∧ addr ≤ gicdIcenablerEnd then
    regs.set .icenabler (regIndex addr gicdIcenabler) data
  else if gicdIspendr ≤ addr ∧ addr ≤ gicdIspendrEnd then
    regs.set .ispendr (regIndex addr gicdIspendr) data
  else if gicdIcpendr ≤ addr ∧ addr ≤ gicdIcpendrEnd then
    regs.set .icpendr (regIndex addr gicdIcpendr) data
  else if gicdIsactiver ≤ addr ∧ addr ≤ gicdIsactiverEnd then
    regs.set .isactiver (regIndex addr gicdIsactiver) data
  else if gicdIcactiver ≤ addr ∧ addr ≤ gicdIcactiverEnd then
    regs.set .icactiver (regIndex addr gicdIcactiver) data
  else if gicdIpriorityr ≤ addr ∧ addr ≤ gicdIpriorityrEnd then
    regs.set .ipriorityr (regIndex addr gicdIpriorityr) data
  else if gicdItargetsr ≤ addr ∧ addr ≤ gicdItargetsrEnd then
    regs.set .itargetsr (regIndex addr gicdItargetsr) data
  else if gicdIcfgr ≤ addr ∧ addr ≤ gicdIcfgrEnd then regs.set .icfgr (regIndex addr gicdIcfgr) data
  else if gicdNsacr ≤ addr ∧ addr ≤ gicdNsacrEnd then regs.set .nsacr (regIndex addr gicdNsacr) data
  else if gicdCpendsgir ≤ addr ∧ addr ≤ gicdCpendsgirEnd then
    regs.set .cpendsgir (regIndex addr gicdCpendsgir) data
  else if gicdSpendsgir ≤ addr ∧ addr ≤ gicdSpendsgirEnd then
    regs.set .spendsgir (regIndex addr gicdSpendsgir) data
  else if addr = gicdIcpidr2 then regs.set .icpidr2 0 data
  else regs

/-! ## `struct gicc_regs` -/

/-- The members of `struct gicc_regs`. -/
inductive GiccField
  | ctlr | pmr | bpr | iar | eoir | rpr | hppir | apbr | aiar | aeoir | ahppir | rsvd1 | apr
  | nsapr | rsvd2 | iidr | rsvd3 | dir
deriving DecidableEq, Repr

instance : Layout GiccField where
  members := [(.ctlr, 4), (.pmr, 4), (.bpr, 4), (.iar, 4), (.eoir, 4), (.rpr, 4), (.hppir, 4), (.apbr, 4),
    (.aiar, 4), (.aeoir, 4), (.ahppir, 4), (.rsvd1, 0xA4), (.apr, 4 * 4), (.nsapr, 4 * 4),
    (.rsvd2, 0xC), (.iidr, 4), (.rsvd3, 0xF00), (.dir, 4)]

/-- One core's `struct gicc_regs`. -/
abbrev GiccRegs := Bank GiccField

example : [GiccField.rsvd1, .apr, .nsapr, .rsvd2, .iidr, .rsvd3, .dir].map fieldOffset =
    [0x2C, 0xD0, 0xE0, 0xF0, 0xFC, 0x100, 0x1000] := by decide

def giccCtlr : BitVec 64 := 0x0000
def giccPmr : BitVec 64 := 0x0004
def giccBpr : BitVec 64 := 0x0008
def giccIar : BitVec 64 := 0x000C
def giccEoir : BitVec 64 := 0x0010
def giccRpr : BitVec 64 := 0x0014
def giccHppir : BitVec 64 := 0x0018
def giccApr : BitVec 64 := 0x00D0
def giccAprEnd : BitVec 64 := 0x00E0 - 1
def giccNsapr : BitVec 64 := 0x00E0
def giccNsaprEnd : BitVec 64 := 0x00FC - 1
def giccIidr : BitVec 64 := 0x00FC
def giccDir : BitVec 64 := 0x1000

/-- The register cases of `mmio_gicc_read`, on the bank of the reading core. -/
def GiccRegs.read (regs : GiccRegs) (addr : BitVec 64) : BitVec 64 :=
  if addr = giccCtlr then regs.get .ctlr 0
  else if addr = giccPmr then regs.get .pmr 0
  else if addr = giccBpr then regs.get .bpr 0
  else if addr = giccEoir then 0
  else if addr = giccRpr then regs.get .rpr 0
  else if addr = giccHppir then regs.get .hppir 0
  else if giccApr ≤ addr ∧ addr ≤ giccAprEnd then regs.get .apr (regIndex addr giccApr)
  -- the source subtracts GICC_APR here too
  else if giccNsapr ≤ addr ∧ addr ≤ giccNsaprEnd then regs.get .nsapr (regIndex addr giccApr)
  else if addr = giccIidr then regs.get .iidr 0
  else if addr = giccDir then regs.get .dir 0
  else 0

/-- The register cases of `mmio_gicc_write`, on the bank of the writing core. -/
def GiccRegs.write (regs : GiccRegs) (addr data : BitVec 64) : GiccRegs :=
  if addr = giccCtlr then regs.set .ctlr 0 data
  else if addr = giccPmr then regs.set .pmr 0 data
  else if addr = giccBpr then regs.set .bpr 0 data
  else if addr = giccIar then regs
  else if addr = giccRpr then regs.set .rpr 0 data
  else if addr = giccHppir then regs.set .hppir 0 data
  else if giccApr ≤ addr ∧ addr ≤ giccAprEnd then regs.set .apr (regIndex addr giccApr) data
  -- the source subtracts GICC_APR here too
  else if giccNsapr ≤ addr ∧ addr ≤ giccNsaprEnd then regs.set .nsapr (regIndex addr giccApr) data
  else if addr = giccIidr then regs.set .iidr 0 data
  else if addr = giccDir then regs.set .dir 0 data
  else regs

end Mooooooo
