import Mooooooo.Proof.Emulator
import Mooooooo.Proof.Schedule

/-!
# The emulator refines the run loop

In `Spec/Run.lean` the effects of guests and hooks are inputs of `uc_run_stuff`. In the
emulator the hooks and the callbacks make them. What the host sees of an emulation is a
run of `uc_run_stuff` (`emulate_refines`), so what holds at every moment of all those runs
holds in the emulator.

* `hostView`: the effects that the guest and the hooks of a core have on the host, as a
  component; `event_seen` is the case of one event.
* `hostSlice`: a slice of the emulator as a slice of `Spec/Run.lean`.
-/

namespace Mooooooo

/-! ## What the host sees -/

/-- The moments of the host in a record. -/
def EmuRec.moments : EmuRec → List Moment
  | .host mo => [mo]
  | _ => []

/-- The moments of the host in a run. -/
def moments (os : List EmuRec) : List Moment := os.flatMap EmuRec.moments

/-- The effect of the guest or of a hook that a call records. -/
def RunCall.act : RunCall → List GuestAct
  | .load _ addr _ => [.load addr]
  | .store _ addr byte => [.store addr byte]
  | .gic _ ⟨⟨_, .access a⟩, _, _⟩ => [.gic a]
  | .smcCpuOn _ cpu => [.smcCpuOn cpu]
  | .quit _ => [.quit]
  | _ => []

/-- The effects of the guest and the hooks in a run. -/
def guestActs (os : List EmuRec) : List GuestAct := os.flatMap fun o => o.moments.flatMap fun mo => mo.call.act

/-- The host under the guest of a core, as a component of the emulator. -/
def hostView (core : Core) : Component Emulator EmuRec Host GuestAct Moment where
  part := Emulator.host
  inp o := o.moments.flatMap fun mo => mo.call.act
  out := EmuRec.moments
  step := guestStep core

theorem moments_append (os os' : List EmuRec) : moments (os ++ os') = moments os ++ moments os' :=
  List.flatMap_append

@[simp] theorem moments_host (ms : List Moment) : moments (ms.map .host) = ms := by
  unfold moments
  rw [List.flatMap_map]
  exact List.flatMap_singleton' ms

/-! ## One event -/

theorem act_seen (core : Core) (act : GuestAct) : (hostView core).Sees (guestAct core act) := by
  intro s
  cases act <;> rfl

theorem acts_seen (core : Core) (acts : List GuestAct) : (hostView core).Sees (Cmd.forEach (guestAct core) acts) :=
  .forEach (act_seen core) acts

theorem read_seen (core : Core) (addr : BitVec 64) (size : BitVec 32) (timeUs : BitVec 64) :
    (hostView core).Sees (emuRead core addr size timeUs) := by
  intro s
  refine Component.Sees.andThen (.quiet (fun _ => rfl) (.emit fun _ => ⟨rfl, rfl⟩)) ?_ s
  rcases readTarget_cases core size (s.host.window core addr) with h | ⟨off, h⟩ | ⟨off, h⟩
  · rw [h]; exact .skip
  · rw [h]; exact act_seen core _
  · rw [h]; exact act_seen core _

theorem write_seen (core : Core) (addr data : BitVec 64) (size : BitVec 32) :
    (hostView core).Sees (emuWrite core addr data size) := by
  intro s
  refine Component.Sees.andThen (.quiet (fun _ => rfl) (.emit fun _ => ⟨rfl, rfl⟩)) ?_ s
  rcases writeTarget_cases core data size (s.host.window core addr) with ⟨a, h⟩ | h
  · rw [h]; exact act_seen core _
  · -- the devices with a state of their own are not the host's
    refine .quiet (fun s => ?_) fun s o ho => ?_
    · obtain ⟨mc, fifos, hend⟩ := (h s).1
      rw [hend]
      rfl
    · obtain ⟨out, rfl⟩ := (h s).2 o ho
      exact ⟨rfl, rfl⟩

theorem code_seen (core : Core) (address : BitVec 64) (insn : Option (BitVec 32)) :
    (hostView core).Sees (emuCode core address insn) := by
  intro s
  refine Component.Sees.andThen (.quiet (fun _ => rfl) (.emit fun _ => ⟨rfl, rfl⟩))
    (.forEach (fun call => ?_) _) s
  cases call with
  | emuStop c => exact .skip
  | hang c a => exact act_seen core _

theorem engineCall_seen (core : Core) (call : EngineCall) : (hostView core).Sees (engineCall core call) := by
  cases call with
  | regWrite engine reg val => exact .quiet (fun _ => rfl) (.emit fun _ => ⟨rfl, rfl⟩)
  | memWrite addr word => exact .guard (acts_seen core _)
  | setOnline cpu => exact act_seen core _
  | setQuit => exact act_seen core _

theorem exception_seen (core : Core) (exceptno : BitVec 32) (i : ExceptionIn) :
    (hostView core).Sees (emuException core exceptno i) := by
  intro s
  unfold emuException
  split
  · exact Component.Sees.andThen (.quiet (fun _ => rfl) (.emit fun _ => ⟨rfl, rfl⟩))
      (.forEach (engineCall_seen core) _) s
  · rfl

theorem reads_seen {core : Core} {c : Cmd Emulator EmuRec} (h : Reads core c) : (hostView core).Sees c :=
  .quiet (h.keeps fun _ _ => rfl) (h.leaves (fun _ _ _ _ => ⟨rfl, rfl⟩) fun _ _ => ⟨rfl, rfl⟩)

/-- **What the host sees of an event** are effects of the guest. -/
theorem event_seen (core : Core) (e : GuestEvent) : (hostView core).Sees (guestEvent core e) := by
  cases e with
  | regs reg => exact .quiet (fun _ => rfl) (.emit fun _ => ⟨rfl, rfl⟩)
  | load addr => exact act_seen core _
  | store addr byte => exact act_seen core _
  | read addr size timeUs => exact read_seen core addr size timeUs
  | write addr data size => exact write_seen core addr data size
  | code address insn => exact code_seen core address insn
  | exception exceptno i =>
    exact (reads_seen (hook_reads core exceptno i)).andThen (.guard (exception_seen core exceptno i))
  | invalid type address ttbr => exact reads_seen (invalid_reads core type address ttbr)

theorem guest_seen (core : Core) (events : List GuestEvent) : (hostView core).Sees (emuGuest core events) :=
  .forEach (fun e => .guard (event_seen core e)) events

/-! ## The maps -/

/-- The banks are mapped into the engine of the core, every engine otherwise on its initial map. -/
def Host.InSlice (core : Core) (h : Host) : Prop := ∀ c, h.regions c = if c = core then initMap ++ banks else initMap

theorem Host.InSlice.withBanks {core : Core} {h : Host} (hs : h.InSlice core) : h.withBanks core banks = h :=
  withBanks_of_regions (funext hs)

/-- Up to the start of the guest, a slice maps the banks. -/
theorem enterCalls_eq (core : Core) {h : Host} (hi : h.Idle) :
    Cmd.forEach id (enterCalls core) h = (h.withBanks core banks, beforeGuest core h) := by
  have hm1 := memMapPtr_eq core [] h mapping_bank (by decide)
  have hm2 := memMapPtr_eq core [bank] h mapping_bank2 (by decide)
  have hm3 := memMapPtr_eq core [bank, bank2] h mapping_bank3 (by decide)
  rw [hi.withBanks_nil core] at hm1
  simp only [List.nil_append, List.cons_append] at hm1 hm2 hm3
  unfold enterCalls
  simp only [Cmd.forEach_cons, Cmd.forEach_nil, id, record, Cmd.emit_apply, hm1, hm2, hm3]
  simp [beforeGuest]

/-- `uc_quit` is set if `uc_emu_start` returned an error. -/
def Host.returned (err : BitVec 32) (h : Host) : Host := if err ≠ 0 then { h with ucQuit := true } else h

theorem Host.InSlice.returned {core : Core} {h : Host} (hs : h.InSlice core) (err : BitVec 32) :
    (h.returned err).InSlice core := by
  intro c
  unfold Host.returned
  split <;> exact hs c

/-- From the end of the guest, a slice sets `uc_quit` on an error and unmaps the banks. -/
theorem leaveCalls_eq (core : Core) (x : Slice) {h : Host} (hs : h.InSlice core) :
    Cmd.forEach id (leaveCalls core x.err x.ret) h =
      ((h.returned x.err).withBanks core [], afterGuest core x ((h.returned x.err).withBanks core [])) := by
  have hend : (if x.err ≠ 0 then { h with ucQuit := true } else h) = (h.returned x.err).withBanks core banks :=
    (hs.returned x.err).withBanks.symm
  have hu1 := memUnmap_eq core [bank2, bank3] (h.returned x.err) mapping_bank (by decide) (by decide)
  have hu2 := memUnmap_eq core [bank3] (h.returned x.err) mapping_bank2 (by decide) (by decide)
  have hu3 := memUnmap_eq core [] (h.returned x.err) mapping_bank3 (by decide) (by decide)
  unfold leaveCalls
  simp only [Cmd.forEach_cons, Cmd.forEach_nil, id, record, Cmd.emit_apply, hend, hu1, hu2, hu3]
  simp [afterGuest]

/-- Events do not change the maps. -/
theorem event_regions (core : Core) (e : GuestEvent) (s : Emulator) :
    (guestEvent core e s).1.host.regions = s.host.regions := by
  have hseen := congrArg Prod.fst (event_seen core e s)
  dsimp only [hostView] at hseen
  rw [← hseen]
  exact guest_regions core _ s.host

section OffHost

variable {κ : Type*} {m : Monitor κ EmuRec} {R : Emulator → κ → Prop}

/-- A command of the host, for a monitor of something else. -/
theorem onHost_quiet (hhost : ∀ s h k, R s k → R { s with host := h } k) (hquiet : ∀ mo, m.Ignores (.host mo))
    (c : Cmd Host Moment) : Triple m R (onHost c) R := by
  refine .quiet (fun s k hs => hhost s _ k hs) fun s o ho => ?_
  obtain ⟨mo, -, rfl⟩ := List.mem_map.1 ho
  exact hquiet mo

/-- The guest starts in a slice. -/
theorem enterSlice_inSlice (core : Core) {s : Emulator} (hi : s.host.Idle) :
    (enterSlice core s).1.host.InSlice core := by
  show (Cmd.forEach id (enterCalls core) s.host).1.InSlice core
  rw [enterCalls_eq core hi]
  exact fun c => rfl

/-- The rule for monitors of something else than the host, which may use the maps under a guest. -/
theorem EmuRule.offHost (hhost : ∀ s h k, R s k → R { s with host := h } k)
    (hquiet : ∀ mo, m.Ignores (.host mo))
    (hstart : ∀ core, Triple m R (Cmd.emit id fun s => .emuStart core (s.reg core .pc) (s.reg core)) R)
    (hevent : ∀ core e, Triple m (fun s k => s.host.InSlice core ∧ R s k) (guestEvent core e) R) :
    EmuRule m (fun s k => s.host.Idle ∧ R s k) (fun _ s k => s.host.Idle ∧ R s k)
      (fun core s k => s.host.InSlice core ∧ R s k) where
  inject core := by
    rintro s k ⟨⟨hi, hs⟩, -, -⟩
    obtain ⟨hacc, hend⟩ := onHost_quiet hhost hquiet (gicEvent ⟨core, .sliceStart⟩ (.handleInterrupts core)) s k hs
    exact ⟨hacc, hi.inject core, hend⟩
  enter core := by
    rintro s k ⟨hi, hs⟩
    obtain ⟨hacc, hend⟩ := (onHost_quiet hhost hquiet (Cmd.forEach id (enterCalls core))).andThen (hstart core) s k hs
    exact ⟨hacc, enterSlice_inSlice core hi, hend⟩
  event core e := by
    rintro s k ⟨-, hin, hs⟩
    obtain ⟨hacc, hend⟩ := hevent core e s k ⟨hin, hs⟩
    refine ⟨hacc, fun c => ?_, hend⟩
    rw [event_regions]
    exact hin c
  leave core x := by
    rintro s k ⟨-, hin, hs⟩
    obtain ⟨hacc, hend⟩ := onHost_quiet hhost hquiet (Cmd.forEach id (leaveCalls core x.err x.ret)) s k hs
    refine ⟨hacc, ?_, hend⟩
    show (Cmd.forEach id (leaveCalls core x.err x.ret) s.host).1.Idle
    rw [leaveCalls_eq core ⟨[], x.err, x.ret⟩ hin]
    exact idle_withBanks_nil core _

end OffHost

/-! ## One slice -/

/-- The emulator when the guest of a core starts. -/
def Emulator.entered (s : Emulator) (core : Core) : Emulator := (enterSlice core s).1

/-- A slice of the emulator as the run loop of `Spec/Run.lean` has it. -/
def hostSlice (core : Core) (x : EmuSlice) (s : Emulator) : Slice :=
  ⟨guestActs (emuGuest core x.events (s.entered core)).2, x.err, x.ret⟩

theorem onHost_moments (c : Cmd Host Moment) (s : Emulator) : moments (onHost c s).2 = (c s.host).2 :=
  moments_host _

/-- A slice of `Spec/Run.lean`, cut at the two ends of its guest. -/
theorem ucCoreRunSlice_cut (core : Core) (y : Slice) : ucCoreRunSlice core y = Cmd.andThen
    (Cmd.forEach id (enterCalls core)) (Cmd.andThen (Cmd.forEach (guestStep core) y.acts)
      (Cmd.forEach id (leaveCalls core y.err y.ret))) := by
  funext h
  have hlist : ucCoreRunSlice core y =
      Cmd.forEach id (enterCalls core ++ Cmd.forEach (guestStep core) y.acts :: leaveCalls core y.err y.ret) := rfl
  rw [hlist, Cmd.forEach_append, Cmd.forEach_cons]
  rfl

theorem enterSlice_moments (core : Core) (s : Emulator) :
    moments (enterSlice core s).2 = (Cmd.forEach id (enterCalls core) s.host).2 := by
  unfold enterSlice
  rw [Cmd.andThen_apply]
  dsimp only
  rw [moments_append, onHost_moments]
  exact List.append_nil _

/-- **What the host sees of a slice**: a slice with the effects of its guest, or the beginning of
it if a hook faults. -/
theorem slice_seen (core : Core) (x : EmuSlice) (s : Emulator) :
    moments (emuRunSlice core x s).2 <+: (ucCoreRunSlice core (hostSlice core x s) s.host).2 ∧
      ((emuRunSlice core x s).1.fault = none → ucCoreRunSlice core (hostSlice core x s) s.host =
        ((emuRunSlice core x s).1.host, moments (emuRunSlice core x s).2)) := by
  have hguest : Cmd.forEach (guestStep core) (hostSlice core x s).acts (Cmd.forEach id (enterCalls core) s.host).1 =
      ((emuGuest core x.events (s.entered core)).1.host, moments (emuGuest core x.events (s.entered core)).2) :=
    guest_seen core x.events (s.entered core)
  have hrun : emuRunSlice core x s = Cmd.andThen (enterSlice core)
      (Cmd.andThen (emuGuest core x.events) (unlessFault (leaveSlice core x))) s := rfl
  have hent : (enterSlice core s).1 = s.entered core := rfl
  rw [hrun, ucCoreRunSlice_cut]
  simp only [Cmd.andThen_apply, hguest, moments_append, enterSlice_moments, hent]
  generalize emuGuest core x.events (s.entered core) = g
  have hleave : Cmd.forEach id (leaveCalls core x.err x.ret) g.1.host =
      ((leaveSlice core x g.1).1.host, moments (leaveSlice core x g.1).2) := by
    unfold leaveSlice
    rw [onHost_moments]
    rfl
  have hslice : leaveCalls core (hostSlice core x s).err (hostSlice core x s).ret = leaveCalls core x.err x.ret := rfl
  rw [hslice, hleave]
  by_cases hf : g.1.fault = none
  · have hcont : unlessFault (leaveSlice core x) g.1 = leaveSlice core x g.1 := if_pos hf
    rw [hcont]
    exact ⟨List.prefix_refl _, fun _ => rfl⟩
  · -- the slice ends inside its guest
    have hstop : unlessFault (leaveSlice core x) g.1 = (g.1, []) := if_neg hf
    rw [hstop]
    refine ⟨?_, fun h => absurd h hf⟩
    rw [← List.append_assoc, ← List.append_assoc]
    exact (List.append_nil _).symm ▸ List.prefix_append _ _

/-! ## The run loop -/

/-- What the host sees of a turn. -/
theorem core_seen (core : Core) (x : EmuSlice) (s : Emulator) : ∃ y : Slice, y.err = x.err ∧ y.ret = x.ret ∧
    moments (emuCore core x s).2 <+: (runCore core y s.host).2 ∧
      ((emuCore core x s).1.fault = none →
        runCore core y s.host = ((emuCore core x s).1.host, moments (emuCore core x s).2)) := by
  have hinj : ((onHost (gicEvent ⟨core, .sliceStart⟩ (.handleInterrupts core)) s).1.host,
      moments (onHost (gicEvent ⟨core, .sliceStart⟩ (.handleInterrupts core)) s).2) =
        gicEvent ⟨core, .sliceStart⟩ (.handleInterrupts core) s.host := by rw [onHost_moments]; rfl
  generalize hs1 : onHost (gicEvent ⟨core, .sliceStart⟩ (.handleInterrupts core)) s = s1 at hinj
  obtain ⟨hpre, hend⟩ := slice_seen core x s1.1
  refine ⟨hostSlice core x s1.1, rfl, rfl, ?_⟩
  unfold emuCore runCore
  simp only [Cmd.andThen_apply, hs1, ← hinj, moments_append]
  refine ⟨(List.prefix_append_right_inj _).2 hpre, fun hf => ?_⟩
  rw [hend hf]

/-- The outcome of a slice of the emulator and of one of `Spec/Run.lean`. -/
def SameOutcome (x : EmuSlice) (y : Slice) : Prop := y.err = x.err ∧ y.ret = x.ret

/-- What the host sees of a step is a step of `uc_run_stuff`, or the beginning of one. -/
theorem step_seen (x : EmuSlice) (s : EmuState) : ∃ y : Slice, SameOutcome x y ∧
    moments (emulateStep x s).2 <+: (ucRunStuffStep y s.run).2 ∧
      ((emulateStep x s).1.emu.fault = none →
        ucRunStuffStep y s.run = ((emulateStep x s).1.run, moments (emulateStep x s).2)) := by
  rcases emulateStep_cases x s with ⟨hf, hs⟩ | ⟨-, point, hs, hquiet⟩ | ⟨core, -, hp, hon, hq, hs⟩
  · rw [hs]
    exact ⟨⟨[], x.err, x.ret⟩, ⟨rfl, rfl⟩, List.nil_prefix, fun h => absurd h hf⟩
  · rw [hs]
    exact ⟨⟨[], x.err, x.ret⟩, ⟨rfl, rfl⟩, List.nil_prefix, fun _ => hquiet _⟩
  · obtain ⟨y, herr, hret, hpre, hend⟩ := core_seen core x s.emu
    have hturn := step_turn (x := y) (s := s.run) hp hon hq
    refine ⟨y, ⟨herr, hret⟩, ?_⟩
    rw [hs, hturn, hret]
    refine ⟨hpre, fun hf => ?_⟩
    have hhost : runCore core y s.run.host = runCore core y s.emu.host := rfl
    rw [hhost, hend hf]
    rfl

/-- **What the host sees of a run** that has not faulted is a run of `uc_run_stuff`. -/
theorem run_seen (mem : HostBlock → ℕ → BitVec 8) (reg : Core → Reg → BitVec 64) (xs : List EmuSlice)
    (hf : (emulate mem reg xs).1.emu.fault = none) :
    ∃ ys, List.Forall₂ SameOutcome xs ys ∧
      ucRunStuff mem ys = ((emulate mem reg xs).1.run, moments (emulate mem reg xs).2) := by
  refine simulate (I := fun s : EmuState => s.emu.fault = none) EmuState.run EmuRec.moments SameOutcome
    (g := ucRunStuffStep) (fun x s h => ⟨fault_step x s h, ?_⟩) xs hf
  obtain ⟨y, hout, -, hend⟩ := step_seen x s
  exact ⟨y, hout, hend h⟩

/-- **What the host sees of any run** is a run of `uc_run_stuff`, or begins one if a hook faulted. -/
theorem run_begins (mem : HostBlock → ℕ → BitVec 8) (reg : Core → Reg → BitVec 64) (xs : List EmuSlice) :
    ∃ ys, moments (emulate mem reg xs).2 <+: (ucRunStuff mem ys).2 := by
  induction xs using List.reverseRecOn with
  | nil => exact ⟨[], List.prefix_refl _⟩
  | append_singleton xs x ih =>
    rw [emulate_concat]
    by_cases hf : (emulate mem reg xs).1.emu.fault = none
    · obtain ⟨ys, -, hys⟩ := run_seen mem reg xs hf
      obtain ⟨y, -, hpre, -⟩ := step_seen x (emulate mem reg xs).1
      refine ⟨ys ++ [y], ?_⟩
      rw [ucRunStuff_concat, hys, moments_append]
      exact (List.prefix_append_right_inj _).2 hpre
    · -- nothing happens after a fault
      have hstop : emulateStep x (emulate mem reg xs).1 = ((emulate mem reg xs).1, []) := if_neg hf
      obtain ⟨ys, hys⟩ := ih
      refine ⟨ys, ?_⟩
      rw [hstop, List.append_nil]
      exact hys

/-- **The emulator refines the run loop.** What the host sees of an emulation is a run of `uc_run_stuff`
on slices that end as those of the emulation do; if a hook faulted, it is the beginning of one. -/
theorem emulate_refines (mem : HostBlock → ℕ → BitVec 8) (reg : Core → Reg → BitVec 64) (xs : List EmuSlice) :
    ∃ ys, moments (emulate mem reg xs).2 <+: (ucRunStuff mem ys).2 ∧
      ((emulate mem reg xs).1.emu.fault = none → List.Forall₂ SameOutcome xs ys ∧
        ucRunStuff mem ys = ((emulate mem reg xs).1.run, moments (emulate mem reg xs).2)) := by
  by_cases hf : (emulate mem reg xs).1.emu.fault = none
  · obtain ⟨ys, hrel, hys⟩ := run_seen mem reg xs hf
    exact ⟨ys, by rw [hys], fun _ => ⟨hrel, hys⟩⟩
  · obtain ⟨ys, hys⟩ := run_begins mem reg xs
    exact ⟨ys, hys, fun h => absurd h hf⟩

end Mooooooo
