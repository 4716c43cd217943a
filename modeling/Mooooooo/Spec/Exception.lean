import Mooooooo.Lib.Bytes
import Mooooooo.Spec.Walk

/-!
# `hook_exception`

The hook that the engines call at an exception: secure monitor calls, supervisor calls,
aborts. It is modelled by the calls that it makes, in the order of the source: `uc_reg_write`
on the registers of any engine, `uc_mem_write`, and the writes to the two globals. It ends in
these, or in a `HostFault`: an access outside the host's memory, or `while (1);`.

What the engine and the C library return to it are inputs. What it prints is left out, except
for what it reads for that in guest memory: the string of `smcDebugPrint` and the tables that
`uc_mmu_walk` comes to.
-/

namespace Mooooooo

/-! ## Faults -/

/-- `tmp` and `args`, in bytes, and `cores` and `cores_online`, in entries. -/
inductive HostArray
  | tmp | args | cores | coresOnline
deriving DecidableEq, Repr

def HostArray.size : HostArray → ℕ
  | .tmp => 0x38
  | .args => 8 * 8
  | .cores => 4
  | .coresOnline => 4

inductive HostFault
  /-- An access behind the end of one of the host's own arrays. -/
  | outOfBounds (array : HostArray) (off len : ℕ)
  | spins
  /-- `%s` of the null pointer, or of bytes without a zero before the end of their bank. -/
  | string (ptr : Option HostPtr)
  /-- `uc_mmu_level_iterate` reads outside the banks. -/
  | walk (ptr : Option HostPtr) (off : ℕ)
deriving DecidableEq, Repr

/-- An access to `len` bytes or entries of an array from `off` on. -/
def HostArray.access (array : HostArray) (off len : ℕ) : Except HostFault Unit :=
  if off + len ≤ array.size then .ok () else .error (.outOfBounds array off len)

/-- The bytes from an offset on up to a zero, if there is one among the next `n`. -/
def cString (byte : ℕ → BitVec 8) : ℕ → ℕ → Option (List (BitVec 8))
  | 0, _ => none
  | n + 1, off => if byte off = 0 then some [] else (cString byte n (off + 1)).map (byte off :: ·)

/-- The string that `%s` prints for a pointer, if that is one into a bank and the string ends there. -/
def hostString (mem : HostBlock → ℕ → BitVec 8) : Option HostPtr → Option (List (BitVec 8))
  | some p => cString (mem p.block) (dramSize.toNat - p.off.toNat) p.off.toNat
  | none => none

/-- The fault of `%s` for a pointer to the string `str`. -/
def stringFault (ptr : Option HostPtr) (str : Option (List (BitVec 8))) : Option HostFault :=
  if str = none then some (.string ptr) else none

/-- The fault of a step of the walk. -/
def WalkCall.fault : WalkCall → Option HostFault
  | .read ptr off => if InBank ptr off then none else some (.walk ptr off)
  | _ => none

/-- The fault in which a walk ends, if it does. -/
def walkFault (calls : List WalkCall) : Option HostFault := calls.findSome? WalkCall.fault

/-- A walk up to its fault. -/
def walkReached : List WalkCall → List WalkCall
  | [] => []
  | call :: calls => call :: if call.fault = none then walkReached calls else []

/-! ## Inputs -/

/-- `uint64_t args[8]`. -/
abbrev Args := Fin 8 → BitVec 64

/-- What the hook gets from the engine and the C library. -/
structure ExceptionIn where
  spsel : BitVec 64
  ttbr0 : BitVec 64
  ttbr1 : BitVec 64
  mem : HostBlock → ℕ → BitVec 8
  /-- `uc_mem_read` of four bytes, `none` where it fails. -/
  ucMemRead : BitVec 64 → Option (BitVec 32)
  ucRedirect : BitVec 64 → BitVec 64
  rand : ℕ → BitVec 32
  /-- What `svc` holds before anything is read into it. -/
  svc : BitVec 64

/-- `uc_mem_read(uc, addr, &var, 4)`: the lower half of the variable, if it succeeds. -/
def readInto (i : ExceptionIn) (addr var : BitVec 64) : BitVec 64 :=
  match i.ucMemRead addr with
  | some word => var &&& 0xFFFFFFFF00000000 ||| word.setWidth 64
  | none => var

/-! ## Calls -/

/-- `UC_ARM64_REG_X0` to `UC_ARM64_REG_X30`, `UC_ARM64_REG_SP` and `UC_ARM64_REG_PC`. -/
inductive Reg
  | x (n : Fin 31)
  | sp
  | pc
deriving DecidableEq, Repr

/-- The registers `X0` to `X7`, by their index in `args`. -/
def argReg (j : Fin 8) : Reg := .x (j.castLE (by decide))

inductive EngineCall
  | regWrite (engine : Core) (reg : Reg) (val : BitVec 64)
  | memWrite (addr : BitVec 64) (word : BitVec 32)
  | setOnline (core : Core)
  | setQuit
deriving DecidableEq, Repr

/-! ## Secure monitor calls -/

/-- Byte `k` of `tmp`, which is filled by `rand`. -/
def tmpByte (i : ExceptionIn) (k : ℕ) : BitVec 8 := (i.rand (k / 4) >>> (8 * (k % 4))).setWidth 8

/-- `args` with the first `size` bytes of `tmp` from `args[1]` on. -/
def withTmp (i : ExceptionIn) (size : ℕ) (args : Args) : Args := fun j => leWord fun b =>
  if 8 ≤ 8 * j.val + b ∧ 8 * j.val + b < 8 + size then tmpByte i (8 * j.val + b - 8)
  else (args j >>> (8 * b)).setWidth 8

/-- `memcpy(&args[1], tmp, size)`. -/
def memcpyArgs (i : ExceptionIn) (size : ℕ) (args : Args) : Except HostFault Args := do
  HostArray.tmp.access 0 size
  HostArray.args.access 8 size
  return withTmp i size args

def smcGetRandomBytes (i : ExceptionIn) (args : Args) : Except HostFault Args :=
  memcpyArgs i (args 1).toNat (Function.update args 0 0)

def smcReadWriteRegister (i : ExceptionIn) (args : Args) : Args × List EngineCall :=
  let args := Function.update args 0 0
  if args 2 = 0 then (Function.update args 1 (readInto i (args 1) (args 1)), [])
  else (args, [.memWrite (args 1) ((args 3).setWidth 32)])

/-- The entry at `i` of `cores` or `cores_online`. -/
def coreEntry (array : HostArray) (i : BitVec 64) : Except HostFault Core := do
  array.access i.toNat 1
  -- in bounds, so the remainder is the index
  return ⟨i.toNat % 4, Nat.mod_lt _ (by decide)⟩

def smcCpuOn (args : Args) : Except HostFault (Args × List EngineCall) := do
  let args := Function.update args 0 0
  let pc := args 2
  let engine ← coreEntry .cores (args 1)
  let online ← coreEntry .coresOnline (args 1)
  return (args, [.regWrite engine (argReg 0) (args 3), .regWrite engine .pc pc, .setOnline online])

/-- `config_val`, where there is one. -/
def configVal (item : BitVec 64) : Option (BitVec 64) :=
  if item = 1 then some 0 -- disableprogramverification
  else if item = 10 then some 1 -- memoryarrange
  else if item = 11 then some 0 -- isdebugmode
  else if item = 12 then some 0 -- kernel config
  else none

def smcGetConfig (args : Args) : Except HostFault Args :=
  match configVal (args 1) with
  | some val => .ok fun j => if j = 0 then 0 else if j.val ≤ 4 then val else args j
  | none => .error .spins

/-- The `switch` on `args[0]`: the arguments that it leaves, and its calls. -/
def smcCall (i : ExceptionIn) (args : Args) : Except HostFault (Args × List EngineCall) :=
  if args 0 = 0xC3000005 then do return (← smcGetRandomBytes i args, [])
  else if args 0 = 0xc3000008 then .ok (smcReadWriteRegister i args)
  else if args 0 = 0xc4000003 then smcCpuOn args
  else if args 0 = 0xc3000004 then do return (← smcGetConfig args, [])
  else if args 0 = 0xc3000006 then .ok (Function.update args 0 0, []) -- smcPanic
  else if args 0 = 0xc3000007 then .ok (Function.update args 0 0, []) -- smcConfigureCarveout
  else if args 0 = 0xf00ff00f then .ok (Function.update args 0 0, []) -- smcDebugPrint, see `hookReadFault`
  else .ok (args, [])

/-! ## The hook -/

/-- `X0` to `X7` from `args`, and the next instruction. -/
def writeBack (core : Core) (args : Args) (pc : BitVec 64) : List EngineCall :=
  (List.finRange 8).map (fun j => .regWrite core (argReg j) (args j)) ++ [.regWrite core .pc (pc + 4)]

/-- The branch for supervisor calls, which does not write the registers back. -/
def svcCall (core : Core) (i : ExceptionIn) (pc : BitVec 64) : List EngineCall :=
  let svc := readInto i (pc - 4) i.svc
  let svcno := (svc &&& 0xFFF) >>> 5
  if svcno = 0x7 then [.setQuit] -- svc exit
  else if svcno = 0xB then [.regWrite core (argReg 0) 0, .regWrite core (argReg 1) 0] -- svcSleepThread
  else []

/-- What the hook calls, where what it reads in order to print it is there. -/
def hookExceptionCalls (core : Core) (exceptno : BitVec 32) (i : ExceptionIn) (args : Args) (pc : BitVec 64) :
    Except HostFault (List EngineCall) :=
  if exceptno = 1 ∧ i.spsel ≠ 0 then do
    let r ← smcCall i args
    return r.2 ++ writeBack core r.1 pc
  else if exceptno = 2 then .ok (svcCall core i pc)
  -- an abort and an unknown exception only print
  else .ok (writeBack core args pc)

/-- The fault of what the hook reads in guest memory in order to print it: the string of
`smcDebugPrint`, and the tables after a prefetch abort. Both reads come before the first call. -/
def hookReadFault (exceptno : BitVec 32) (i : ExceptionIn) (args : Args) (pc : BitVec 64) : Option HostFault :=
  if exceptno = 1 ∧ i.spsel ≠ 0 then
    if args 0 = 0xf00ff00f then
      let ptr := paddrToAlloc (i.ucRedirect (args 1))
      stringFault ptr (hostString i.mem ptr)
    else none
  else if exceptno = 3 then walkFault (ucMmuWalk i.mem i.ttbr0 i.ttbr1 pc)
  else none

/-- `hook_exception` on the engine of `core`, with `args` and `pc` read from its registers. -/
def hookException (core : Core) (exceptno : BitVec 32) (i : ExceptionIn) (args : Args) (pc : BitVec 64) :
    Except HostFault (List EngineCall) :=
  match hookReadFault exceptno i args pc with
  | some f => .error f
  | none => hookExceptionCalls core exceptno i args pc

/-! ## Engines -/

/-- The bytes of an engine's memory, `none` where nothing is mapped. -/
abbrev EngineMem := ℕ → Option (BitVec 8)

/-- The bytes `[a, a + 4)` are mapped. -/
def EngineMem.Mapped (mem : EngineMem) (a : ℕ) : Prop := ∀ k < 4, (mem (a + k)).isSome

instance (mem : EngineMem) (a : ℕ) : Decidable (mem.Mapped a) := inferInstanceAs (Decidable (∀ k < 4, _))

/-- `uc_mem_read(uc, addr, &word, 4)`, which fails unless all bytes are mapped. -/
def ucMemRead (mem : EngineMem) (addr : BitVec 64) : Option (BitVec 32) :=
  if mem.Mapped addr.toNat then some (Bytes.word fun k => (mem (addr.toNat + k)).getD 0) else none

/-- `uc_mem_write(uc, addr, &word, 4)`, which fails unless all bytes are mapped. -/
def ucMemWrite (mem : EngineMem) (addr : BitVec 64) (word : BitVec 32) : EngineMem :=
  if mem.Mapped addr.toNat then Bytes.place mem addr.toNat ((Bytes.bytes word).map some) else mem

/-- All engines' registers, the memory of the one that takes the exception, and the globals. -/
structure Machine where
  reg : Core → Reg → BitVec 64
  mem : EngineMem
  coresOnline : Core → Bool
  ucQuit : Bool

namespace Machine

def exec (m : Machine) : EngineCall → Machine
  | .regWrite engine reg val =>
    { m with reg := Function.update m.reg engine (Function.update (m.reg engine) reg val) }
  | .memWrite addr word => { m with mem := ucMemWrite m.mem addr word }
  | .setOnline core => { m with coresOnline := Function.update m.coresOnline core true }
  | .setQuit => { m with ucQuit := true }

/-- `args`, as the hook reads them from the registers of its engine. -/
def args (m : Machine) (core : Core) : Args := fun j => m.reg core (argReg j)

/-- The inputs of the hook, with the words that the engine's memory has. -/
def input (m : Machine) (i : ExceptionIn) : ExceptionIn := { i with ucMemRead := ucMemRead m.mem }

/-- The hook on the engines, where what it reads in order to print it is there. -/
def hook (m : Machine) (core : Core) (exceptno : BitVec 32) (i : ExceptionIn) : Except HostFault Machine := do
  let calls ← hookExceptionCalls core exceptno (m.input i) (m.args core) (m.reg core .pc)
  return calls.foldl exec m

/-- The hook on the engines. -/
def exception (m : Machine) (core : Core) (exceptno : BitVec 32) (i : ExceptionIn) : Except HostFault Machine := do
  let calls ← hookException core exceptno (m.input i) (m.args core) (m.reg core .pc)
  return calls.foldl exec m

end Machine

/-! ## Calls of the secure monitor -/

/-- `args[0]`, which names the call. -/
abbrev Args.call (args : Args) : BitVec 64 := args 0

/-- `args[1]`, what the call is about. -/
abbrev Args.subject (args : Args) : BitVec 64 := args 1

/-- The exception is `smcCpuOn` for the processor `cpu`. -/
def CpuOn (exceptno : BitVec 32) (spsel : BitVec 64) (args : Args) (cpu : Core) : Prop :=
  exceptno = 1 ∧ spsel ≠ 0 ∧ args 0 = 0xc4000003 ∧ args 1 = BitVec.ofNat 64 cpu

instance (exceptno : BitVec 32) (spsel : BitVec 64) (args : Args) (cpu : Core) :
    Decidable (CpuOn exceptno spsel args cpu) := inferInstanceAs (Decidable (_ ∧ _))

/-- The registers of a core that `smcCpuOn` starts. -/
def cpuOnRegs (args : Args) (regs : Reg → BitVec 64) : Reg → BitVec 64 :=
  Function.update (Function.update regs (argReg 0) (args 3)) .pc (args 2)

end Mooooooo
