import Mooooooo.Spec.Devices
import Mooooooo.Spec.Exception
import Mooooooo.Spec.Hooks

/-!
# The emulator

`uc_run_stuff` with everything that the source attaches to the engines: the registers that
it reads and writes, `hook_code`, `hook_exception`, `hook_mem_invalid` and the callbacks of
all windows, on one state. `Spec/Run.lean` has the same loop with what the hooks do as an input; here they run.

What is left as input is the guest itself (`GuestEvent`): what its instructions do to its
own registers, its accesses, and when the engine calls a hook. An access of a guest goes to
what its engine has mapped there. A word that `uc_mem_read` finds outside host memory is an
input, and a `uc_mem_write` that meets a window is an access of its own.

A hook can end in a `HostFault`. The model stops there: nothing happens after it.
-/

namespace Mooooooo

/-! ## State -/

/-- The host, the registers of the engines, the statics of `hook_code`, the devices. -/
structure Emulator where
  host : Host
  reg : Core → Reg → BitVec 64
  lastPc0 : BitVec 64
  lastPc1 : BitVec 64
  gHasSevl : Core → Bool
  gShouldStop : Core → Bool
  fifos : Fifos
  mc : McRegs
  fault : Option HostFault

/-- The host memory that the engine of a core has mapped, by address. -/
def Host.engineMem (h : Host) (core : Core) : EngineMem := fun a =>
  match (h.regions core).find a with
  | some r => match r.back with
    | .host block => some (h.mem block (a - r.org))
    | .mmio _ => none
  | none => none

namespace Emulator

/-- The statics of `hook_code`, and `uc_quit`. -/
def hookState (s : Emulator) : HookState := ⟨s.lastPc0, s.lastPc1, s.gHasSevl, s.gShouldStop, s.host.ucQuit⟩

/-- `args`, as `hook_exception` reads them on the engine of a core. -/
def args (s : Emulator) (core : Core) : Args := fun j => s.reg core (argReg j)

/-- The inputs of `hook_exception`, with the words that host memory has. -/
def input (s : Emulator) (core : Core) (i : ExceptionIn) : ExceptionIn :=
  { i with
    mem := s.host.mem
    ucMemRead := fun addr => (ucMemRead (s.host.engineMem core) addr).or (i.ucMemRead addr) }

/-- The fault of what `hook_exception` on the engine of a core reads in order to print it. -/
def readFault (s : Emulator) (core : Core) (exceptno : BitVec 32) (i : ExceptionIn) : Option HostFault :=
  hookReadFault exceptno (s.input core i) (s.args core) (s.reg core .pc)

end Emulator

/-! ## Inputs -/

/-- What the guest of a core does, and the hooks that the engine calls. -/
inductive GuestEvent
  /-- Instructions change the registers of their own engine. -/
  | regs (reg : Reg → BitVec 64)
  /-- A byte of memory is read or written. -/
  | load (addr : BitVec 64)
  | store (addr : BitVec 64) (byte : BitVec 8)
  /-- A window is read, with what `time_us()` would return, or written. -/
  | read (addr : BitVec 64) (size : BitVec 32) (timeUs : BitVec 64)
  | write (addr data : BitVec 64) (size : BitVec 32)
  /-- `hook_code`, with the word read at the address if that is not host memory. -/
  | code (address : BitVec 64) (insn : Option (BitVec 32))
  /-- `hook_exception`. -/
  | exception (exceptno : BitVec 32) (i : ExceptionIn)
  /-- `hook_mem_invalid`, with the two translation table registers of each engine. -/
  | invalid (type : BitVec 32) (address : BitVec 64) (ttbr : Core → BitVec 64 × BitVec 64)

/-- One slice: the guest, what `uc_emu_start` returns, what `uc_core_run_slice` returns. -/
structure EmuSlice where
  events : List GuestEvent
  err : BitVec 32
  ret : BitVec 32

/-! ## Records -/

inductive EmuRec
  /-- What the host sees of the run. -/
  | host (mo : Moment)
  /-- `uc_emu_start(uc, pc, ...)`, with the registers that the guest starts with. -/
  | emuStart (core : Core) (pc : BitVec 64) (reg : Reg → BitVec 64)
  /-- Instructions changed the registers of their engine. -/
  | regs (core : Core) (reg : Reg → BitVec 64)
  /-- An access that is not to host memory: the window it goes to, if any, with the offset there. -/
  | read (core : Core) (addr : BitVec 64) (size : BitVec 32) (target : Option (Device × BitVec 64))
      (value : Option (BitVec 64))
  | write (core : Core) (addr data : BitVec 64) (size : BitVec 32) (target : Option (Device × BitVec 64))
  | uart (o : UartOutput)
  /-- A call of `hook_code`, and the calls it made. -/
  | code (e : CodeCall) (calls : List HookCall)
  /-- A call of `hook_exception`, what it read, and the calls it is going to make. -/
  | exception (core : Core) (exceptno : BitVec 32) (spsel : BitVec 64) (args : Args) (calls : List EngineCall)
  /-- `uc_reg_write` by a hook on the engine of `core`. -/
  | regWrite (core engine : Core) (reg : Reg) (val : BitVec 64)
  /-- A hook of `core` calls `uc_mmu_walk` on an engine: what that reads and prints, up to its fault if it has one. -/
  | walk (core engine : Core) (ttbr : BitVec 64 × BitVec 64) (addr : BitVec 64) (calls : List WalkCall)
  /-- `smcDebugPrint`: the pointer, and the string there, if it ends in its bank. -/
  | print (core : Core) (ptr : Option HostPtr) (str : Option (List (BitVec 8)))
  /-- A call of `hook_exception` that ends in a fault of its own calls, and what it read. -/
  | fault (core : Core) (exceptno : BitVec 32) (spsel : BitVec 64) (args : Args) (f : HostFault)

/-! ## The host inside the emulator -/

/-- A command of the host. -/
def onHost (c : Cmd Host Moment) : Cmd Emulator EmuRec := fun s =>
  ({ s with host := (c s.host).1 }, (c s.host).2.map .host)

/-- An effect on the host by the guest or a hook of a core. -/
def guestAct (core : Core) (act : GuestAct) : Cmd Emulator EmuRec := onHost (guestStep core act)

/-- Nothing happens after a fault. -/
def unlessFault (c : Cmd Emulator EmuRec) : Cmd Emulator EmuRec := fun s =>
  if s.fault = none then c s else (s, [])

/-! ## Windows -/

/-- What the read callback of a window returns. -/
def Emulator.readDevice (s : Emulator) (core : Core) (dev : Device) (off : BitVec 64) (size : BitVec 32)
    (timeUs : BitVec 64) : BitVec 64 :=
  match dev with
  | .timer => mmioTimerRead off timeUs
  | .host1x => mmioHost1xRead off
  | .system => mmioSystemRead off
  | .mselect => mmioMselectRead off
  | .gicd => mmioGicdRead core off size s.host.gic
  | .gicc => mmioGiccRead core off size s.host.gic
  | .mc => mmioMcRead off s.mc
  | .mc0 => mmioMc0Read off
  | .mc1 => mmioMc1Read off
  | .car => mmioCarRead off
  | .pinmux => mmioPinmuxRead off
  | .uart => mmioUartRead off

/-- What a read leaves behind: an event, if the window is one of the interrupt controller. -/
def readEffect (core : Core) (dev : Device) (off : BitVec 64) (size : BitVec 32) : Cmd Emulator EmuRec :=
  match dev with
  | .gicd => guestAct core (.gic (.gicdRead off size))
  | .gicc => guestAct core (.gic (.giccRead off size))
  | _ => Cmd.skip

/-- The write callback of a window; those not named do nothing. -/
def writeDevice (core : Core) (dev : Device) (off data : BitVec 64) (size : BitVec 32) : Cmd Emulator EmuRec :=
  match dev with
  | .gicd => guestAct core (.gic (.gicdWrite off data size))
  | .gicc => guestAct core (.gic (.giccWrite off data size))
  | .mc => fun s => ({ s with mc := mmioMcWrite off data s.mc }, [])
  | .uart => fun s =>
    let r := mmioUartWrite ⟨off, data, size⟩ s.fifos
    ({ s with fifos := r.1 }, r.2.map .uart)
  | _ => Cmd.skip

/-- The window that the engine of a core has at an address, and the offset in it. -/
def Host.window (h : Host) (core : Core) (addr : BitVec 64) : Option (Device × BitVec 64) :=
  match h.lookup core addr with
  | some (.mmio dev, off) => some (dev, BitVec.ofNat 64 off)
  | _ => none

/-- What a read leaves behind where it goes to. -/
def readTarget (core : Core) (size : BitVec 32) : Option (Device × BitVec 64) → Cmd Emulator EmuRec
  | some (dev, off) => readEffect core dev off size
  | none => Cmd.skip

/-- What a write does where it goes to. -/
def writeTarget (core : Core) (data : BitVec 64) (size : BitVec 32) : Option (Device × BitVec 64) → Cmd Emulator EmuRec
  | some (dev, off) => writeDevice core dev off data size
  | none => Cmd.skip

/-- The guest of a core reads at an address. -/
def emuRead (core : Core) (addr : BitVec 64) (size : BitVec 32) (timeUs : BitVec 64) : Cmd Emulator EmuRec := fun s =>
  let target := s.host.window core addr
  Cmd.andThen
    (Cmd.emit id fun s => .read core addr size target (target.map fun t => s.readDevice core t.1 t.2 size timeUs))
    (readTarget core size target) s

/-- The guest of a core writes at an address. -/
def emuWrite (core : Core) (addr data : BitVec 64) (size : BitVec 32) : Cmd Emulator EmuRec := fun s =>
  let target := s.host.window core addr
  Cmd.andThen (Cmd.emit id fun _ => .write core addr data size target) (writeTarget core data size target) s

/-! ## Hooks -/

/-- What `hook_code` does outside its own statics. -/
def hookCallEffect (core : Core) : HookCall → Cmd Emulator EmuRec
  | .hang _ _ => guestAct core .quit
  | .emuStop _ => Cmd.skip

/-- `hook_code` on the engine of a core. -/
def emuCode (core : Core) (address : BitVec 64) (insn : Option (BitVec 32)) : Cmd Emulator EmuRec := fun s =>
  let e : CodeCall := ⟨core, address, (ucMemRead (s.host.engineMem core) address).or insn⟩
  let r := hookCode e s.hookState
  Cmd.andThen
    (Cmd.emit (fun s => { s with
      lastPc0 := r.1.lastPc0
      lastPc1 := r.1.lastPc1
      gHasSevl := r.1.gHasSevl
      gShouldStop := r.1.gShouldStop }) fun _ => .code e r.2)
    (Cmd.forEach (hookCallEffect core) r.2) s

/-- `uc_mem_write` of a word, as stores of its bytes. -/
def wordStores (addr : BitVec 64) (word : BitVec 32) : List GuestAct :=
  (Bytes.bytes word).mapIdx fun k byte => .store (addr + BitVec.ofNat 64 k) byte

/-- A call of `hook_exception` on the engine of a core. -/
def engineCall (core : Core) : EngineCall → Cmd Emulator EmuRec
  | .regWrite engine reg val =>
    Cmd.emit
      (fun s => { s with reg := Function.update s.reg engine (Function.update (s.reg engine) reg val) })
      fun _ => .regWrite core engine reg val
  | .memWrite addr word => fun s =>
    if (s.host.engineMem core).Mapped addr.toNat then Cmd.forEach (guestAct core) (wordStores addr word) s
    else (s, [])
  | .setOnline cpu => guestAct core (.smcCpuOn cpu)
  | .setQuit => guestAct core .quit

/-- The calls of `hook_exception` on the engine of a core. -/
def emuException (core : Core) (exceptno : BitVec 32) (i : ExceptionIn) : Cmd Emulator EmuRec := fun s =>
  match hookExceptionCalls core exceptno (s.input core i) (s.args core) (s.reg core .pc) with
  | .ok calls =>
    Cmd.andThen (Cmd.emit id fun s => .exception core exceptno i.spsel (s.args core) calls)
      (Cmd.forEach (engineCall core) calls) s
  | .error f => ({ s with fault := some f }, [.fault core exceptno i.spsel (s.args core) f])

/-! ## Reads of guest memory -/

/-- A hook of `core` calls `uc_mmu_walk(uc, addr)` on an engine. -/
def emuWalk (core engine : Core) (ttbr : BitVec 64 × BitVec 64) (addr : BitVec 64) : Cmd Emulator EmuRec :=
  Cmd.emit (fun s => { s with fault := walkFault (ucMmuWalk s.host.mem ttbr.1 ttbr.2 addr) })
    fun s => .walk core engine ttbr addr (walkReached (ucMmuWalk s.host.mem ttbr.1 ttbr.2 addr))

/-- `%s` of a pointer, for `smcDebugPrint` on the engine of a core. -/
def emuPrint (core : Core) (ptr : Option HostPtr) : Cmd Emulator EmuRec :=
  Cmd.emit (fun s => { s with fault := stringFault ptr (hostString s.host.mem ptr) })
    fun s => .print core ptr (hostString s.host.mem ptr)

/-- What `hook_exception` reads in order to print it, before its first call; see `hookReadFault`. -/
def emuReads (core : Core) (exceptno : BitVec 32) (i : ExceptionIn) : Cmd Emulator EmuRec := fun s =>
  if exceptno = 1 ∧ i.spsel ≠ 0 then
    if (s.args core).call = 0xf00ff00f then emuPrint core (paddrToAlloc (i.ucRedirect (s.args core).subject)) s
    else (s, [])
  else if exceptno = 3 then emuWalk core core (i.ttbr0, i.ttbr1) (s.reg core .pc) s
  else (s, [])

/-- `hook_exception` on the engine of a core: what it reads in order to print it, and its calls if that was there. -/
def emuHook (core : Core) (exceptno : BitVec 32) (i : ExceptionIn) : Cmd Emulator EmuRec :=
  Cmd.andThen (emuReads core exceptno i) fun s =>
    if s.readFault core exceptno i = none then emuException core exceptno i s else (s, [])

/-- Values of `uc_mem_type`, and those of `uc_err` that `hook_mem_invalid` compares with them. -/
def ucMemReadUnmapped : BitVec 32 := 19
def ucMemWriteUnmapped : BitVec 32 := 20
def ucErrFetchUnmapped : BitVec 32 := 8

/-- The engines that `hook_mem_invalid` walks the tables of, by the type of the access. -/
def walkedEngines (core : Core) (type : BitVec 32) : List Core :=
  if type = ucMemReadUnmapped then [core]
  else if type = ucMemWriteUnmapped then coreList
  else if type = ucErrFetchUnmapped then [core]
  -- a fetch is `UC_ERR_EXCEPTION` here
  else []

/-- `hook_mem_invalid` on the engine of a core; it returns `false` in every case. -/
def emuMemInvalid (core : Core) (type : BitVec 32) (address : BitVec 64) (ttbr : Core → BitVec 64 × BitVec 64) :
    Cmd Emulator EmuRec :=
  Cmd.forEach (fun engine => unlessFault (emuWalk core engine (ttbr engine) address)) (walkedEngines core type)

/-! ## Slices -/

def guestEvent (core : Core) : GuestEvent → Cmd Emulator EmuRec
  | .regs reg => Cmd.emit (fun s => { s with reg := Function.update s.reg core reg }) fun _ => .regs core reg
  | .load addr => guestAct core (.load addr)
  | .store addr byte => guestAct core (.store addr byte)
  | .read addr size timeUs => emuRead core addr size timeUs
  | .write addr data size => emuWrite core addr data size
  | .code address insn => emuCode core address insn
  | .exception exceptno i => emuHook core exceptno i
  | .invalid type address ttbr => emuMemInvalid core type address ttbr

/-- The calls of `uc_core_run_slice` up to the start of the guest. -/
def enterCalls (core : Core) : List (Cmd Host Moment) := [
  record (.runSlice core) id,
  memMapPtr core (dramBase.setWidth 64) (dramSize.signExtend 64) .dram,
  memMapPtr core ((dramBase + dramSize * 1).setWidth 64) (dramSize.signExtend 64) .dram2,
  memMapPtr core ((dramBase + dramSize * 2).setWidth 64) (dramSize.signExtend 64) .dram3,
  record (.emuStart core) id]

/-- The calls of `uc_core_run_slice` from the end of the guest. -/
def leaveCalls (core : Core) (err ret : BitVec 32) : List (Cmd Host Moment) := [
  record (.emuEnd core err) fun h => if err ≠ 0 then { h with ucQuit := true } else h,
  memUnmap core (dramBase.setWidth 64) (dramSize.signExtend 64),
  memUnmap core ((dramBase + dramSize * 1).setWidth 64) (dramSize.signExtend 64),
  memUnmap core ((dramBase + dramSize * 2).setWidth 64) (dramSize.signExtend 64),
  record (.sliceEnd core err ret) id]

/-- `uc_core_run_slice` up to the start of the guest; nothing in between changes the program counter. -/
def enterSlice (core : Core) : Cmd Emulator EmuRec :=
  Cmd.andThen (onHost (Cmd.forEach id (enterCalls core)))
    (Cmd.emit id fun s => .emuStart core (s.reg core .pc) (s.reg core))

/-- `uc_core_run_slice` from the end of the guest. -/
def leaveSlice (core : Core) (x : EmuSlice) : Cmd Emulator EmuRec :=
  onHost (Cmd.forEach id (leaveCalls core x.err x.ret))

/-- The guest of a core. -/
def emuGuest (core : Core) (events : List GuestEvent) : Cmd Emulator EmuRec :=
  Cmd.forEach (fun e => unlessFault (guestEvent core e)) events

/-- The slice of a core. -/
def emuRunSlice (core : Core) (x : EmuSlice) : Cmd Emulator EmuRec :=
  Cmd.andThen (enterSlice core) (Cmd.andThen (emuGuest core x.events) (unlessFault (leaveSlice core x)))

/-! ## The run loop -/

structure EmuState where
  point : RunPoint
  err : BitVec 32
  emu : Emulator

/-- The body of the `for` past its two tests. -/
def emuCore (core : Core) (x : EmuSlice) : Cmd Emulator EmuRec :=
  Cmd.andThen (onHost (gicEvent ⟨core, .sliceStart⟩ (.handleInterrupts core))) (emuRunSlice core x)

/-- From one program point to the next. -/
def emulateStep (x : EmuSlice) : Cmd EmuState EmuRec := fun s =>
  if s.emu.fault = none then
    match s.point with
    | .whileHead =>
      ({ s with point := if s.err = 0 ∧ s.emu.host.ucQuit = false then .forHead 0 else .left }, [])
    | .forHead i =>
      if hi : i < 4 then
        if s.emu.host.coresOnline ⟨i, hi⟩ = false then ({ s with point := .passEnd }, [])
        else if s.emu.host.ucQuit = true then ({ s with point := .passEnd }, [])
        else
          let r := emuCore ⟨i, hi⟩ x s.emu
          (⟨if x.ret ≠ 0 then .passEnd else .forHead (i + 1), x.ret, r.1⟩, r.2)
      else ({ s with point := .passEnd }, [])
    | .passEnd => ({ s with point := if s.emu.host.ucQuit = true then .left else .whileHead }, [])
    | .left => (s, [])
  else (s, [])

/-- `KADDRESS_800`, an `unsigned int`. -/
def kaddress800 : BitVec 32 := 0x80060000

/-- `main` up to the loop of `uc_run_stuff`, which sets the program counter of core 0 first; `reg` are the
registers of engines that `uc_open` returns. -/
def Emulator.start (mem : HostBlock → ℕ → BitVec 8) (reg : Core → Reg → BitVec 64) : Emulator where
  host := (RunState.start mem).host
  reg := fun core => if core.val = 0 then Function.update (reg core) .pc (kaddress800.setWidth 64) else reg core
  lastPc0 := 0
  lastPc1 := 0
  gHasSevl := fun _ => false
  gShouldStop := fun _ => false
  fifos := fun _ => []
  mc := McRegs.zero
  fault := none

def EmuState.start (mem : HostBlock → ℕ → BitVec 8) (reg : Core → Reg → BitVec 64) : EmuState :=
  ⟨.whileHead, 0, Emulator.start mem reg⟩

/-- The run of the emulator on a list of slices, one for each step. -/
def emulate (mem : HostBlock → ℕ → BitVec 8) (reg : Core → Reg → BitVec 64) (xs : List EmuSlice) :
    EmuState × List EmuRec :=
  Cmd.forEach emulateStep xs (EmuState.start mem reg)

end Mooooooo
