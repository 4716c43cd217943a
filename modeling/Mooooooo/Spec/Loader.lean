import Mooooooo.Lib.Bytes
import Mooooooo.Spec.Memory

/-!
# The loader of the processes

`load_processes` puts the files of the directory `kips` into guest memory, behind a header
that it updates for every file. What the directory lists and what is in the files are
inputs. A pointer of the source is a place in a block of host memory; an access that runs
past the end of its block ends in `none`.
-/

namespace Mooooooo

/-- The contents of the blocks. -/
abbrev HostMem := HostBlock → ℕ → BitVec 8

def HostBlock.size : HostBlock → ℕ
  | .dram | .dram2 | .dram3 | .dram4 => dramSize.toNat
  | .iram => iramSize.toNat
  | .tzram => tzramSize.toNat

/-- `PADDRESS`, an `unsigned int`. -/
def paddress : BitVec 32 := 0x94080000
/-- `PADDRESS_800`, an `unsigned int`. -/
def paddress800 : BitVec 32 := 0x800F5000

/-- Bytes are stored at `ptr + off`. -/
def hostStore (ptr : Option HostPtr) (off : ℕ) (bytes : List (BitVec 8)) (mem : HostMem) : Option HostMem :=
  if bytes = [] then some mem
  else match ptr with
    | some p =>
      if p.off.toNat + off + bytes.length ≤ p.block.size then
        some (Function.update mem p.block (Bytes.place (mem p.block) (p.off.toNat + off) bytes))
      else none
    | none => none

/-- The 32-bit word at `ptr + off`; the null pointer reads as 0 here. -/
def hostWord (ptr : Option HostPtr) (off : ℕ) (mem : HostMem) : BitVec 32 :=
  match ptr with
  | some p => Bytes.word fun k => mem p.block (p.off.toNat + off + k)
  | none => 0

/-! ## `ini_header` -/

/-- The members of `ini_header`. -/
inductive IniField
  | magic | size | count | reserved
deriving DecidableEq, Repr

instance : Layout IniField where
  members := [(.magic, 4), (.size, 4), (.count, 4), (.reserved, 4)]

/-- `sizeof(ini_header)` -/
def sizeofIniHeader : ℕ := ((Layout.members : List (IniField × ℕ)).map Prod.snd).sum

/-- `(ini_header*)(paddr_to_alloc(PADDRESS_800))` -/
def ini : Option HostPtr := paddrToAlloc (paddress800.setWidth 64)

/-- `ini->f` -/
def iniGet (f : IniField) (mem : HostMem) : BitVec 32 := hostWord ini (fieldOffset f) mem

/-- `ini->f = val` -/
def iniSet (f : IniField) (val : BitVec 32) (mem : HostMem) : Option HostMem :=
  hostStore ini (fieldOffset f) (Bytes.bytes val) mem

/-! ## `load_processes` -/

/-- An entry of the directory; `content` is `none` where `fopen` fails. -/
structure Kip where
  path : String
  content : Option (List (BitVec 8))

/-- `kips.sort()` -/
def kipsSort (kips : List Kip) : List Kip := kips.mergeSort fun a b => a.path ≤ b.path

/-- The body of the loop over the files. -/
def loadKip (mem : HostMem) (kip : Kip) : Option HostMem :=
  match kip.content with
  | some content => do
    let fsize := content.length
    let mem ← hostStore (paddrToAlloc (paddress.setWidth 64)) (iniGet .size mem).toNat content mem
    let mem ← iniSet .size (iniGet .size mem + BitVec.ofNat 32 fsize) mem
    iniSet .count (iniGet .count mem + 1) mem
  | none => some mem

/-- `load_processes`, where the directory lists `kips`. -/
def loadProcesses (kips : List Kip) (mem : HostMem) : Option HostMem :=
  let numProcesses := BitVec.ofNat 32 kips.length
  if numProcesses = 0 then some mem
  else do
    let mem ← iniSet .magic 0x31494E49 mem
    let mem ← iniSet .size (BitVec.ofNat 32 sizeofIniHeader) mem
    let mem ← iniSet .count 0 mem
    (kipsSort kips).foldlM loadKip mem

end Mooooooo
