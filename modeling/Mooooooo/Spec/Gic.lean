import Mooooooo.Lib.Cmd
import Mooooooo.Spec.Registers

/-!
# The interrupt controller

The shared state of `mmio/gicd.cpp` and `mmio/gicc.cpp`, their functions, and runs
of the controller: any interleaving of the cores' accesses to the two MMIO windows
and of slice starts. A function that changes the state is a command recording the
calls it makes (`GicCall`); a run records one `GicRec` per event.

`int` and `uint32_t` are 32-bit words, `uint64_t` 64-bit words. `uc_get_core(uc)` is
the core of the engine the callback is called with.
-/

namespace Mooooooo

/-- `struct gicd_interrupt`. -/
structure GicdInterrupt where
  targetList : BitVec 32
  target : BitVec 32
  intid : BitVec 32
  sender : BitVec 32
deriving DecidableEq, Repr

/-- The globals of the two source files. -/
structure GicState where
  sgirQueue : Core → List GicdInterrupt
  gicdRegsSet : Core → GicdRegs
  giccRegsSet : Core → GiccRegs
  activeIntr : Core → BitVec 32
  activeIntrCpu : Core → BitVec 32

/-- The calls a run records: `sgir_queue[core].push`, `mmio_gicc_set_active_interrupt`
and `uc_raise_irq`. -/
inductive GicCall
  | push (core : Core) (intr : GicdInterrupt)
  | setActive (core : Core) (id cpu : BitVec 32)
  | raiseIrq (core : Core)
deriving DecidableEq, Repr

/-- `for (int i = 0; i < 4; i++)`. -/
def coreList : List Core := [0, 1, 2, 3]

/-! ## The active interrupt and the queues -/

def sgirQueuePush (core : Core) (intr : GicdInterrupt) : Cmd GicState GicCall :=
  Cmd.emit
    (fun s => { s with sgirQueue := Function.update s.sgirQueue core (s.sgirQueue core ++ [intr]) })
    fun _ => .push core intr

def sgirQueuePop (core : Core) : Cmd GicState GicCall := fun s =>
  ({ s with sgirQueue := Function.update s.sgirQueue core (s.sgirQueue core).tail }, [])

def mmioGiccSetActiveInterrupt (id cpu : BitVec 32) (core : Core) : Cmd GicState GicCall :=
  Cmd.emit
    (fun s => { s with
      activeIntr := Function.update s.activeIntr core id
      activeIntrCpu := Function.update s.activeIntrCpu core cpu })
    fun _ => .setActive core id cpu

def mmioGiccInterruptActive (core : Core) (s : GicState) : Bool := s.activeIntr core != 0x3FF

def mmioGicdPushNextInterrupt (core : Core) : Cmd GicState GicCall := fun s =>
  match s.sgirQueue core with
  | [] => mmioGiccSetActiveInterrupt 0x3FF 0 core s
  | handling :: _ =>
    Cmd.andThen (mmioGiccSetActiveInterrupt handling.intid handling.sender core) (sgirQueuePop core) s

def ucRaiseIrq (core : Core) : Cmd GicState GicCall := Cmd.emit id fun _ => .raiseIrq core

def mmioGicdHandleInterrupts (core : Core) : Cmd GicState GicCall := fun s =>
  if (s.sgirQueue core).isEmpty && !mmioGiccInterruptActive core s then (s, [])
  else Cmd.andThen (mmioGicdPushNextInterrupt core) (ucRaiseIrq core) s

/-! ## `GICD_SGIR` -/

def gicdSgirTargetListShift : ℕ := 24
def gicdSgirTargetShift : ℕ := 16
def gicdSgirTargetList : BitVec 32 := 0 <<< gicdSgirTargetListShift
def gicdSgirTargetOthers : BitVec 32 := 1 <<< gicdSgirTargetListShift
def gicdSgirTargetSelf : BitVec 32 := 2 <<< gicdSgirTargetListShift
def gicdSgirTargetOthersVal : BitVec 32 := 1
def gicdSgirTargetSelfVal : BitVec 32 := 2
def gicdSgirTargetListMask : BitVec 32 := 0x03000000
def gicdSgirTargetMask : BitVec 32 := 0x00FF0000
def gicdSgirIntidMask : BitVec 32 := 0x0000000F

/-- The entry that a write of `data` to `GICD_SGIR` by `core` queues. -/
def sgirEntry (core : Core) (data : BitVec 64) : GicdInterrupt where
  targetList := ((data &&& gicdSgirTargetListMask.setWidth 64) >>> gicdSgirTargetListShift).setWidth 32
  target := ((data &&& gicdSgirTargetMask.setWidth 64) >>> gicdSgirTargetShift).setWidth 32
  intid := (data &&& gicdSgirIntidMask.setWidth 64).setWidth 32
  sender := BitVec.ofNat 32 core

/-- The case `GICD_SGIR` of `mmio_gicd_write`. -/
def mmioGicdWriteSgir (core : Core) (data : BitVec 64) : Cmd GicState GicCall :=
  let intr := sgirEntry core data
  if intr.target = gicdSgirTargetOthersVal then
    Cmd.forEach (fun i => if i = core then Cmd.skip else sgirQueuePush i intr) coreList
  else if intr.target = gicdSgirTargetSelfVal then sgirQueuePush core intr
  else Cmd.forEach (fun i => sgirQueuePush i intr) coreList

/-! ## The MMIO callbacks -/

def mmioGicdRead (core : Core) (addr : BitVec 64) (_size : BitVec 32) (s : GicState) : BitVec 64 :=
  (s.gicdRegsSet core).read addr

def mmioGicdWrite (core : Core) (addr data : BitVec 64) (_size : BitVec 32) : Cmd GicState GicCall :=
  fun s =>
    if addr = gicdSgir then mmioGicdWriteSgir core data s
    else ({ s with
      gicdRegsSet := Function.update s.gicdRegsSet core ((s.gicdRegsSet core).write addr data) }, [])

def mmioGiccRead (core : Core) (addr : BitVec 64) (_size : BitVec 32) (s : GicState) : BitVec 64 :=
  if addr = giccIar then (s.activeIntr core ||| (s.activeIntrCpu core <<< 10)).signExtend 64
  else (s.giccRegsSet core).read addr

def mmioGiccWrite (core : Core) (addr data : BitVec 64) (_size : BitVec 32) : Cmd GicState GicCall :=
  fun s =>
    if addr = giccEoir then mmioGicdPushNextInterrupt core s
    else ({ s with
      giccRegsSet := Function.update s.giccRegsSet core ((s.giccRegsSet core).write addr data) }, [])

/-- The state set up by `mmio_gicc_init`. -/
def mmioGiccInit (s : GicState) : GicState :=
  coreList.foldl (fun s i => { s with
    activeIntr := Function.update s.activeIntr i 0x3FF
    activeIntrCpu := Function.update s.activeIntrCpu i 0 }) s

/-- Static storage. -/
def GicState.zero : GicState := ⟨fun _ => [], fun _ => Bank.zero, fun _ => Bank.zero, fun _ => 0, fun _ => 0⟩

/-- After the four `uc_init` calls, each of which calls `mmio_gicc_init`. -/
def GicState.init : GicState := coreList.foldl (fun s _ => mmioGiccInit s) GicState.zero

/-! ## Runs -/

/-- An access to one of the two MMIO windows. -/
inductive GicAccess
  | gicdRead (addr : BitVec 64) (size : BitVec 32)
  | gicdWrite (addr data : BitVec 64) (size : BitVec 32)
  | giccRead (addr : BitVec 64) (size : BitVec 32)
  | giccWrite (addr data : BitVec 64) (size : BitVec 32)
deriving DecidableEq, Repr

/-- What a core can make happen at the controller: an access by its guest, or the
start of its slice, where `uc_run_stuff` calls `mmio_gicd_handle_interrupts`. -/
inductive GicOp
  | access (a : GicAccess)
  | sliceStart
deriving DecidableEq, Repr

structure GicEvent where
  core : Core
  op : GicOp
deriving DecidableEq, Repr

/-- An event with the value it returned (0 where it returns none) and the calls it made. -/
structure GicRec where
  event : GicEvent
  value : BitVec 64
  calls : List GicCall
deriving DecidableEq, Repr

/-- What an event does, and the value it returns. -/
def GicEvent.exec (e : GicEvent) (s : GicState) : (GicState × List GicCall) × BitVec 64 :=
  match e.op with
  | .access (.gicdRead addr size) => ((s, []), mmioGicdRead e.core addr size s)
  | .access (.gicdWrite addr data size) => (mmioGicdWrite e.core addr data size s, 0)
  | .access (.giccRead addr size) => ((s, []), mmioGiccRead e.core addr size s)
  | .access (.giccWrite addr data size) => (mmioGiccWrite e.core addr data size s, 0)
  | .sliceStart => (mmioGicdHandleInterrupts e.core s, 0)

/-- One event. -/
def gicStep (e : GicEvent) : Cmd GicState GicRec := fun s =>
  ((e.exec s).1.1, [⟨e, (e.exec s).2, (e.exec s).1.2⟩])

/-- The run of a list of events from the state after initialisation. -/
def gicRun (es : List GicEvent) : GicState × List GicRec := Cmd.forEach gicStep es GicState.init

end Mooooooo
