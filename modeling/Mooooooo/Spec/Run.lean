import Mooooooo.Spec.Memory

/-!
# Slices and the run loop

`uc_core_run_slice` and `uc_run_stuff`. Every call that the two make, and every effect
of guest code inside `uc_emu_start`, is recorded as a `Moment`: the call, and the host
right after it.

What guest code does in a slice, the error `uc_emu_start` returns and the value that
`uc_core_run_slice` returns are inputs (`Slice`): the function has no return statement,
so the value is any. The run loop is a machine over its program points; each step
takes the outcome of the slice it would start.
-/

namespace Mooooooo

/-! ## Inputs -/

/-- An effect of guest code: a byte of memory read or written, an access to the
interrupt controller, `smcCpuOn` for a core, or a hook setting `uc_quit`. An access of
several bytes is several of one byte. -/
inductive GuestAct
  | load (addr : BitVec 64)
  | store (addr : BitVec 64) (byte : BitVec 8)
  | gic (a : GicAccess)
  | smcCpuOn (cpu : Core)
  | quit
deriving DecidableEq

/-- What happens in one slice: the effects of the guest, what `uc_emu_start` returns,
and what `uc_core_run_slice` returns. -/
structure Slice where
  acts : List GuestAct
  err : BitVec 32
  ret : BitVec 32

/-! ## Moments -/

/-- The calls and effects of a run, each with the core of its engine. -/
inductive RunCall
  | handleInterrupts (core : Core) (r : GicRec)
  | runSlice (core : Core)
  | memMapPtr (core : Core) (addr size : BitVec 64) (block : HostBlock) (ok : Bool)
  | emuStart (core : Core)
  | load (core : Core) (addr : BitVec 64) (value : Option (BitVec 8))
  | store (core : Core) (addr : BitVec 64) (byte : BitVec 8)
  | gic (core : Core) (r : GicRec)
  | smcCpuOn (core cpu : Core)
  | quit (core : Core)
  | emuEnd (core : Core) (err : BitVec 32)
  | memUnmap (core : Core) (addr size : BitVec 64)
  | sliceEnd (core : Core) (err ret : BitVec 32)

/-- The core on whose engine the call is made. -/
def RunCall.core : RunCall → Core
  | .handleInterrupts c _ | .runSlice c | .memMapPtr c _ _ _ _ | .emuStart c | .load c _ _ | .store c _ _
  | .gic c _ | .smcCpuOn c _ | .quit c | .emuEnd c _ | .memUnmap c _ _ | .sliceEnd c _ _ => c

/-- Where a moment is in a slice: at one of its two ends or between slices, with its
engine inside `uc_emu_start`, or among the map and unmap calls around that. -/
inductive Phase
  | boundary
  | mapping
  | emu
deriving DecidableEq, Repr

def RunCall.phase : RunCall → Phase
  | .handleInterrupts _ _ | .runSlice _ | .sliceEnd _ _ _ => .boundary
  | .memMapPtr _ _ _ _ _ | .emuEnd _ _ | .memUnmap _ _ _ => .mapping
  | .emuStart _ | .load _ _ _ | .store _ _ _ | .gic _ _ | .smcCpuOn _ _ | .quit _ => .emu

/-- A call, and the host right after it. -/
structure Moment where
  call : RunCall
  host : Host

/-- Change the host and record the call. -/
def record (call : RunCall) (f : Host → Host) : Cmd Host Moment := Cmd.emit f fun h => ⟨call, h⟩

/-! ## `uc_core_run_slice` -/

def memMapPtr (core : Core) (addr size : BitVec 64) (block : HostBlock) : Cmd Host Moment := fun h =>
  record (.memMapPtr core addr size block (ucMemMapPtr core addr size block h).2)
    (fun h => (ucMemMapPtr core addr size block h).1) h

def memUnmap (core : Core) (addr size : BitVec 64) : Cmd Host Moment :=
  record (.memUnmap core addr size) (ucMemUnmap core addr size)

/-- An event at the interrupt controller. -/
def gicEvent (e : GicEvent) (call : GicRec → RunCall) : Cmd Host Moment := fun h =>
  let r : GicRec := ⟨e, (e.exec h.gic).2, (e.exec h.gic).1.2⟩
  record (call r) (fun h => { h with gic := (e.exec h.gic).1.1 }) h

/-- One effect of the guest of a core. -/
def guestStep (core : Core) : GuestAct → Cmd Host Moment
  | .load addr => fun h => record (.load core addr (h.readByte core addr)) id h
  | .store addr byte => record (.store core addr byte) fun h => h.writeByte core addr byte
  | .gic a => gicEvent ⟨core, .access a⟩ (.gic core)
  | .smcCpuOn cpu => record (.smcCpuOn core cpu) fun h =>
    { h with coresOnline := Function.update h.coresOnline cpu true }
  | .quit => record (.quit core) fun h => { h with ucQuit := true }

/-- The slice of a core: map the banks, run, unmap the banks. -/
def ucCoreRunSlice (core : Core) (x : Slice) : Cmd Host Moment :=
  Cmd.forEach id [
    record (.runSlice core) id,
    memMapPtr core (dramBase.setWidth 64) (dramSize.signExtend 64) .dram,
    memMapPtr core ((dramBase + dramSize * 1).setWidth 64) (dramSize.signExtend 64) .dram2,
    memMapPtr core ((dramBase + dramSize * 2).setWidth 64) (dramSize.signExtend 64) .dram3,
    record (.emuStart core) id,
    Cmd.forEach (guestStep core) x.acts,
    record (.emuEnd core x.err) fun h => if x.err ≠ 0 then { h with ucQuit := true } else h,
    memUnmap core (dramBase.setWidth 64) (dramSize.signExtend 64),
    memUnmap core ((dramBase + dramSize * 1).setWidth 64) (dramSize.signExtend 64),
    memUnmap core ((dramBase + dramSize * 2).setWidth 64) (dramSize.signExtend 64),
    record (.sliceEnd core x.err x.ret) id]

/-- Slices on any of the engines, one after another. -/
def sliceRun (mem : HostBlock → ℕ → BitVec 8) (xs : List (Core × Slice)) : Host × List Moment :=
  Cmd.forEach (fun x => ucCoreRunSlice x.1 x.2) xs (Host.init mem)

/-! ## `uc_run_stuff` -/

/-- The program points of the two loops: the test of the `while`, the head of the `for`
with its counter, the test behind the `for`, and behind the `while`. -/
inductive RunPoint
  | whileHead
  | forHead (i : ℕ)
  | passEnd
  | left
deriving DecidableEq, Repr

structure RunState where
  point : RunPoint
  err : BitVec 32
  host : Host

/-- The body of the `for` past its two tests. -/
def runCore (core : Core) (x : Slice) : Cmd Host Moment :=
  (gicEvent ⟨core, .sliceStart⟩ (.handleInterrupts core)).andThen (ucCoreRunSlice core x)

/-- From one program point to the next. -/
def ucRunStuffStep (x : Slice) : Cmd RunState Moment := fun s =>
  match s.point with
  | .whileHead =>
    ({ s with point := if s.err = 0 ∧ s.host.ucQuit = false then .forHead 0 else .left }, [])
  | .forHead i =>
    if hi : i < 4 then
      if s.host.coresOnline ⟨i, hi⟩ = false then ({ s with point := .passEnd }, [])
      else if s.host.ucQuit = true then ({ s with point := .passEnd }, [])
      else
        let r := runCore ⟨i, hi⟩ x s.host
        (⟨if x.ret ≠ 0 then .passEnd else .forHead (i + 1), x.ret, r.1⟩, r.2)
    else ({ s with point := .passEnd }, [])
  | .passEnd => ({ s with point := if s.host.ucQuit = true then .left else .whileHead }, [])
  | .left => (s, [])

/-- `main` before `uc_run_stuff`: the engines set up, core 0 online. -/
def RunState.start (mem : HostBlock → ℕ → BitVec 8) : RunState :=
  ⟨.whileHead, 0, { Host.init mem with coresOnline := fun core => core.val == 0 }⟩

/-- The run of `uc_run_stuff` on a list of slice outcomes, one for each step. -/
def ucRunStuff (mem : HostBlock → ℕ → BitVec 8) (xs : List Slice) : RunState × List Moment :=
  Cmd.forEach ucRunStuffStep xs (RunState.start mem)

end Mooooooo
