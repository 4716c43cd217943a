import Mooooooo.Proof.Calls
import Mooooooo.Proof.Hooks

/-!
# Which cores run, and until when

The run loop looks at `cores_online` and `uc_quit`. In the emulator both are decided by
what the guests do: a core comes online by `smcCpuOn`, and the emulation ends by a
supervisor call, by a hang or by an error of an engine.

* `Life`: what decides the run loop, read off the records alone.
* `emulate_life`: **no core runs before it is started, nor after the end**, in every run.
-/

namespace Mooooooo

/-! ## Reading the records -/

/-- The cores that have been started, whether the emulation is to end, and the addresses of the last two
calls of `hook_code`. -/
structure Life where
  online : Core → Bool
  quit : Bool
  lastPc0 : BitVec 64
  lastPc1 : BitVec 64

/-- Core 0 is started by `main`. -/
def Life.boot : Life := ⟨fun core => core.val == 0, false, 0, 0⟩

def Life.next (k : Life) : EmuRec → Life
  | .exception _ exceptno spsel args calls => { k with
      online := fun j => k.online j || decide (CpuOn exceptno spsel args j)
      quit := k.quit || decide (.setQuit ∈ calls) }
  | .code e _ => ⟨k.online, k.quit || decide (k.lastPc0 = e.address ∧ k.lastPc1 = e.address), e.address, k.lastPc0⟩
  | .host ⟨.emuEnd _ err, _⟩ => { k with quit := k.quit || decide (err ≠ 0) }
  | _ => k

/-- A core gets its interrupts and its slice if it has been started and nothing has ended the emulation. Only
supervisor calls end it among the exceptions. -/
def Life.ok (k : Life) : EmuRec → Prop
  | .host ⟨.handleInterrupts core _, _⟩ | .emuStart core _ _ => k.online core = true ∧ k.quit = false
  | .exception _ exceptno _ _ calls => .setQuit ∈ calls → exceptno = 2
  | _ => True

def life : Monitor Life EmuRec := ⟨Life.next, Life.ok⟩

/-! ## Records that do not matter -/

/-- What the records must tell of the state. -/
def Emulator.life (s : Emulator) : Life := ⟨s.host.coresOnline, s.host.ucQuit, s.lastPc0, s.lastPc1⟩

def Lives (s : Emulator) (k : Life) : Prop := s.life = k

/-- An effect of a guest or a hook, whatever it does to the host. -/
theorem act_calm (core : Core) (act : GuestAct) : Leaves life.Ignores (guestAct core act) := by
  intro s o ho
  cases act <;> (rw [List.mem_singleton.1 ho]; exact fun k => ⟨rfl, trivial⟩)

theorem gic_lives (core : Core) (a : GicAccess) : Triple life Lives (guestAct core (.gic a)) Lives :=
  .quiet (fun _ _ hs => hs) (act_calm core _)

theorem regWrite_calm (core engine : Core) (reg : Reg) (val : BitVec 64) :
    life.Ignores (.regWrite core engine reg val) := fun _ => ⟨rfl, trivial⟩

theorem engineCall_calm (core : Core) (call : EngineCall) : Leaves life.Ignores (engineCall core call) := by
  cases call with
  | regWrite engine reg val => exact .emit fun _ => regWrite_calm core engine reg val
  | memWrite addr word => exact .guard (.forEach (act_calm core) _)
  | setOnline cpu => exact act_calm core _
  | setQuit => exact act_calm core _

theorem engineCalls_lastPc (core : Core) (calls : List EngineCall) :
    Keeps (fun s : Emulator => (s.lastPc0, s.lastPc1)) (Cmd.forEach (engineCall core) calls) := by
  refine .forEach (fun call => ?_) calls
  cases call with
  | regWrite engine reg val => exact fun _ => rfl
  | memWrite addr word => exact .guard (.forEach (fun _ _ => rfl) _)
  | setOnline cpu => exact fun _ => rfl
  | setQuit => exact fun _ => rfl

/-! ## Events -/

theorem store_lives (core : Core) (addr : BitVec 64) (byte : BitVec 8) :
    Triple life Lives (guestAct core (.store addr byte)) Lives := by
  refine .quiet (fun s k hs => ?_) (act_calm core _)
  have hflow := store_flow core addr byte s
  simp only [Emulator.flow, Prod.mk.injEq] at hflow
  rw [← hs]
  show Life.mk _ _ s.lastPc0 s.lastPc1 = _
  rw [hflow.1, hflow.2]
  rfl

theorem hookCall_calm (core : Core) (call : HookCall) : Leaves life.Ignores (hookCallEffect core call) := by
  cases call with
  | emuStop c => exact .skip
  | hang c address => exact act_calm core _

/-- What the calls of `hook_code` do: a hang ends the emulation, if nothing has yet. -/
theorem hookCalls_life (core : Core) (e : CodeCall) (h : HookState) (s : Emulator) (hq : h.ucQuit = s.host.ucQuit) :
    (Cmd.forEach (hookCallEffect core) (hookCode e h).2 s).1.life =
      ⟨s.host.coresOnline, s.host.ucQuit || decide (h.lastPc0 = e.address ∧ h.lastPc1 = e.address),
        s.lastPc0, s.lastPc1⟩ := by
  have hstop : ∀ calls, (Cmd.forEach (hookCallEffect core)
      ((if h.gShouldStop e.core = true then [.emuStop e.core] else []) ++ calls) s).1 =
      (Cmd.forEach (hookCallEffect core) calls s).1 := by
    intro calls
    split <;> rfl
  rw [hookCode_eq]
  dsimp only
  rw [hstop, hq]
  by_cases hang : h.lastPc0 = e.address ∧ h.lastPc1 = e.address
  · rw [decide_eq_true hang, Bool.or_true]
    cases hquit : s.host.ucQuit with
    | false =>
      rw [if_pos ⟨hang.1, hang.2, rfl⟩]
      rfl
    | true =>
      rw [if_neg (by simp), ← hquit]
      rfl
  · rw [decide_eq_false hang, Bool.or_false, if_neg fun h' => hang ⟨h'.1, h'.2.1⟩]
    rfl

/-- `hook_code` ends the emulation exactly at the third call in a row with one address. -/
theorem code_lives (core : Core) (address : BitVec 64) (insn : Option (BitVec 32)) :
    Triple life Lives (emuCode core address insn) Lives := by
  rintro s k rfl
  let e : CodeCall := ⟨core, address, (ucMemRead (s.host.engineMem core) address).or insn⟩
  let s' : Emulator := { s with
    lastPc0 := (hookCode e s.hookState).1.lastPc0
    lastPc1 := (hookCode e s.hookState).1.lastPc1
    gHasSevl := (hookCode e s.hookState).1.gHasSevl
    gShouldStop := (hookCode e s.hookState).1.gShouldStop }
  have hpc : s'.lastPc0 = address ∧ s'.lastPc1 = s.lastPc0 := by
    have hstate : (hookCode e s.hookState).1.lastPc0 = address ∧ (hookCode e s.hookState).1.lastPc1 = s.lastPc0 := by
      rw [hookCode_eq]
      exact ⟨rfl, rfl⟩
    exact hstate
  obtain ⟨hacc, hrun⟩ := Monitor.Ignores.list (Leaves.forEach (hookCall_calm core) (hookCode e s.hookState).2 s')
    (s.life.next (.code e (hookCode e s.hookState).2))
  have hend := hookCalls_life core e s.hookState s' rfl
  rw [hpc.1, hpc.2] at hend
  refine ⟨⟨trivial, hacc⟩, ?_⟩
  show Emulator.life (Cmd.forEach (hookCallEffect core) (hookCode e s.hookState).2 s').1 =
    life.run (s.life.next (.code e (hookCode e s.hookState).2))
      (Cmd.forEach (hookCallEffect core) (hookCode e s.hookState).2 s').2
  rw [hrun]
  exact hend

/-- **An exception** starts the core that `smcCpuOn` names, and ends the emulation if it calls for that. -/
theorem exception_lives (core : Core) (exceptno : BitVec 32) (i : ExceptionIn) :
    Triple life Lives (emuException core exceptno i) Lives := by
  rintro s k rfl
  unfold emuException
  split
  · rename_i calls hcalls
    have hcases := hookExceptionCalls_cases hcalls
    obtain ⟨hacc, hrun⟩ := Monitor.Ignores.list (Leaves.forEach (engineCall_calm core) calls s)
      (s.life.next (.exception core exceptno i.spsel (s.args core) calls))
    obtain ⟨honline, hquit⟩ := engineCalls_flow core calls s
    have hpc := engineCalls_lastPc core calls s
    refine ⟨⟨fun hq => ((hcases.setQuit_mem).1 hq).1, hacc⟩, ?_⟩
    show Emulator.life (Cmd.forEach (engineCall core) calls s).1 =
      life.run (s.life.next (.exception core exceptno i.spsel (s.args core) calls))
        (Cmd.forEach (engineCall core) calls s).2
    rw [hrun]
    simp only [Emulator.life, Life.next, Life.mk.injEq]
    refine ⟨funext fun j => ?_, hquit, congrArg Prod.fst hpc, congrArg Prod.snd hpc⟩
    rw [honline j, decide_eq_decide.2 (hcases.setOnline_mem j)]
    rfl
  · exact ⟨⟨trivial, trivial⟩, rfl⟩

theorem reads_lives {core : Core} {cmd : Cmd Emulator EmuRec} (h : Reads core cmd) : Triple life Lives cmd Lives :=
  h.triple (fun _ _ _ hs => hs) (fun _ _ _ _ _ => ⟨rfl, trivial⟩) fun _ _ _ => ⟨rfl, trivial⟩

theorem event_lives (core : Core) (e : GuestEvent) : Triple life Lives (guestEvent core e) Lives := by
  cases e with
  | regs reg => exact .quiet (fun _ _ hs => hs) (.emit fun _ _ => ⟨rfl, trivial⟩)
  | load addr => exact .quiet (fun _ _ hs => hs) (act_calm core _)
  | store addr byte => exact store_lives core addr byte
  | read addr size timeUs => exact .read (fun _ _ _ _ _ _ _ => ⟨rfl, trivial⟩) (gic_lives core) addr size timeUs
  | write addr data size =>
    exact .write (fun _ _ _ _ _ _ _ => ⟨rfl, trivial⟩) (fun _ _ _ _ => ⟨rfl, trivial⟩) (gic_lives core)
      (fun _ _ _ _ hs => hs) addr data size
  | code address insn => exact code_lives core address insn
  | exception exceptno i =>
    exact (reads_lives (hook_reads core exceptno i)).andThen (.guard (exception_lives core exceptno i))
  | invalid type address ttbr => exact reads_lives (invalid_reads core type address ttbr)

/-! ## Slices -/

/-- Among the calls before the guest, none matters. -/
theorem enter_lives (core : Core) : Triple life
    (fun s k => s.host.Idle ∧ s.host.coresOnline core = true ∧ s.host.ucQuit = false ∧ Lives s k) (enterSlice core)
    (fun s k => s.host.InSlice core ∧ Lives s k) := by
  rintro s k ⟨hi, hon, hq, rfl⟩
  unfold enterSlice onHost
  rw [Cmd.andThen_apply, enterCalls_eq core hi]
  refine ⟨?_, fun c => rfl, ?_⟩
  · simp [beforeGuest, life, Life.ok, Life.next, Emulator.life, hon, hq]
  · simp [beforeGuest, life, Life.next, Emulator.life, Lives, Host.withBanks]

theorem returned_flow (err : BitVec 32) (h : Host) : (h.returned err).coresOnline = h.coresOnline ∧
    (h.returned err).ucQuit = (h.ucQuit || decide (err ≠ 0)) := by
  unfold Host.returned
  by_cases herr : err ≠ 0
  · rw [if_pos herr, decide_eq_true herr, Bool.or_true]
    exact ⟨rfl, rfl⟩
  · rw [if_neg herr, decide_eq_false herr, Bool.or_false]
    exact ⟨rfl, rfl⟩

/-- An error that `uc_emu_start` returns ends the emulation. -/
theorem leave_lives (core : Core) (x : EmuSlice) : Triple life
    (fun s k => s.fault = none ∧ s.host.InSlice core ∧ Lives s k) (leaveSlice core x)
    (fun s k => s.host.Idle ∧ Lives s k) := by
  rintro s k ⟨-, hin, rfl⟩
  unfold leaveSlice onHost
  rw [leaveCalls_eq core ⟨[], x.err, x.ret⟩ hin]
  refine ⟨?_, idle_withBanks_nil core _, ?_⟩
  · simp [afterGuest, life, Life.ok]
  · obtain ⟨hon, hquit⟩ := returned_flow x.err s.host
    simp [afterGuest, life, Life.next, Emulator.life, Lives, Host.withBanks, hon, hquit]

theorem lifeRule : EmuRule life (fun s k => s.host.Idle ∧ Lives s k)
    (fun core s k => s.host.Idle ∧ s.host.coresOnline core = true ∧ s.host.ucQuit = false ∧ Lives s k)
    (fun core s k => s.host.InSlice core ∧ Lives s k) where
  inject core := by
    rintro s k ⟨⟨hi, rfl⟩, hon, hq⟩
    exact ⟨⟨⟨hon, hq⟩, trivial⟩, hi.inject core, hon, hq, rfl⟩
  enter := enter_lives
  event core e := by
    rintro s k ⟨-, hin, hs⟩
    obtain ⟨hacc, hend⟩ := event_lives core e s k hs
    refine ⟨hacc, fun c => ?_, hend⟩
    rw [event_regions]
    exact hin c
  leave := leave_lives

/-- The loop is left only at the end, or for what a slice returned. -/
def EmuState.LeftFor (s : EmuState) : Prop := s.point = .left → s.emu.host.ucQuit = true ∨ s.err ≠ 0

theorem emulateStep_leftFor (x : EmuSlice) (s : EmuState) (h : s.LeftFor) : (emulateStep x s).1.LeftFor := by
  obtain ⟨point, err, emu⟩ := s
  by_cases hf : emu.fault = none
  · unfold emulateStep
    rw [if_pos hf]
    cases point with
    | whileHead =>
      intro hleft
      by_cases hgo : err = 0 ∧ emu.host.ucQuit = false
      · simp [hgo] at hleft
      · by_cases herr : err = 0
        · exact .inl (by simpa [herr] using hgo)
        · exact .inr herr
    | passEnd =>
      intro hleft
      by_cases hq : emu.host.ucQuit = true
      · exact .inl hq
      · simp [hq] at hleft
    | left => exact h
    | forHead i =>
      -- from the head of the `for`, the loops are not left
      dsimp only
      split
      · split
        · intro hleft; cases hleft
        · split
          · intro hleft; cases hleft
          · intro hleft
            dsimp only at hleft
            split at hleft <;> cases hleft
      · intro hleft; cases hleft
  · rw [show emulateStep x ⟨point, err, emu⟩ = (⟨point, err, emu⟩, []) from if_neg hf]
    exact h

/-- **No core runs before it is started, nor after the end.** In every run, a core gets its interrupts and
its slice only once an `smcCpuOn` has named it, core 0 from the beginning, and only until a supervisor call
that is one, three calls of `hook_code` in a row with one address, or an error that an engine returns. Only
that sets `uc_quit`, only that starts a core, and the loop is left for nothing else but a value that a slice
returned. -/
theorem emulate_life (mem : HostBlock → ℕ → BitVec 8) (reg : Core → Reg → BitVec 64) (xs : List EmuSlice) :
    life.Accepts .boot (emulate mem reg xs).2 ∧
      (emulate mem reg xs).1.emu.life = life.run .boot (emulate mem reg xs).2 ∧
      ((emulate mem reg xs).1.point = .left →
        (life.run .boot (emulate mem reg xs).2).quit = true ∨ (emulate mem reg xs).1.err ≠ 0) := by
  obtain ⟨hacc, hend⟩ := lifeRule.run mem reg ⟨start_idle mem, rfl⟩ xs
  have hleft : (emulate mem reg xs).1.LeftFor :=
    Cmd.forEach_inv (I := EmuState.LeftFor) emulateStep_leftFor xs (s := .start mem reg) (fun h => by cases h)
  suffices hlife : (emulate mem reg xs).1.emu.life = life.run .boot (emulate mem reg xs).2 from
    ⟨hacc, hlife, fun h => hlife ▸ hleft h⟩
  rcases hend with ⟨-, hs⟩ | ⟨-, core, -, hs⟩
  · exact hs
  · exact hs

end Mooooooo
