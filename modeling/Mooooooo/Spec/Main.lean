import Mooooooo.Spec.Emulator
import Mooooooo.Spec.Loader

/-!
# `mem_init` and `main`

The kernel and the first processes are files that `mem_init` reads into DRAM before any
engine is there; `main` then runs the emulator. What `mmap64` and `malloc` return is an
input, and so is what `fopen` returns: the content of a file, `none` for the null pointer.
`mem_init` does not test for that one, and `fread` from it ends in `none` here. It opens
`0_saltedkernel_80060000.bin` and `1_process_800F5000.bin`; the README asks for a kernel
`0_saltedkernel_90000000.bin` only, and with a directory prepared like that both are `none`.
-/

namespace Mooooooo

/-- The size of the one item that `fread` reads. -/
def fileSize : ℕ := 0x1000000

/-- `fread(paddr_to_alloc(addr), 0x1000000, 1, f)`; a shorter file is read as far as it goes. -/
def freadFile (addr : BitVec 32) (f : Option (List (BitVec 8))) (mem : HostMem) : Option HostMem :=
  f.bind fun content => hostStore (paddrToAlloc (addr.setWidth 64)) 0 (content.take fileSize) mem

/-- `mem_init`, in which every allocation succeeds. -/
def memInit (hos proc : Option (List (BitVec 8))) (mem : HostMem) : Option HostMem := do
  let mem ← freadFile kaddress800 hos mem
  freadFile paddress800 proc mem

/-- `main`, up to the prints after the run. -/
def main (hos proc : Option (List (BitVec 8))) (mem : HostMem) (reg : Core → Reg → BitVec 64) (xs : List EmuSlice) :
    Option (EmuState × List EmuRec) := do
  let mem ← memInit hos proc mem
  return emulate mem reg xs

end Mooooooo
