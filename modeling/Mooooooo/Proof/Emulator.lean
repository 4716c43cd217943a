import Mooooooo.Lib.Component
import Mooooooo.Spec.Emulator

/-!
# Rules for the emulator

* `emulateStep_cases`: what one step of the run loop does.
* `EmuRule.run`: **the rule for runs.** A monitor accepts every run of the emulator if it
  accepts its four pieces: the injection, the entry of a slice, an event of the guest, the
  exit.
* `emulate_sees`: the same for components.
-/

namespace Mooooooo

/-! ## The run loop -/

/-- The state of the run loop in the emulator's. -/
def EmuState.run (s : EmuState) : RunState := ⟨s.point, s.err, s.emu.host⟩

/-- **What a step of the emulator does.** It stands still after a fault, moves on as `uc_run_stuff` does
without a call, or gives a core that is online its turn. -/
theorem emulateStep_cases (x : EmuSlice) (s : EmuState) :
    (s.emu.fault ≠ none ∧ emulateStep x s = (s, [])) ∨
    (s.emu.fault = none ∧ ∃ point, emulateStep x s = ({ s with point := point }, []) ∧
      ∀ y, ucRunStuffStep y s.run = ({ s.run with point := point }, [])) ∨
    ∃ core : Core, s.emu.fault = none ∧ s.point = .forHead core ∧ s.emu.host.coresOnline core = true ∧
      s.emu.host.ucQuit = false ∧
      emulateStep x s = (⟨if x.ret ≠ 0 then .passEnd else .forHead (core + 1), x.ret, (emuCore core x s.emu).1⟩,
        (emuCore core x s.emu).2) := by
  obtain ⟨point, err, emu⟩ := s
  by_cases hf : emu.fault = none
  · right
    cases point with
    | whileHead => exact .inl ⟨hf, _, if_pos hf, fun _ => rfl⟩
    | passEnd => exact .inl ⟨hf, _, if_pos hf, fun _ => rfl⟩
    | left => exact .inl ⟨hf, .left, if_pos hf, fun _ => rfl⟩
    | forHead i =>
      simp only [emulateStep, ucRunStuffStep, EmuState.run, if_pos hf]
      by_cases hlt : i < 4
      · simp only [dif_pos hlt]
        by_cases hon : emu.host.coresOnline ⟨i, hlt⟩ = false
        · exact .inl ⟨hf, .passEnd, if_pos hon, fun _ => if_pos hon⟩
        · by_cases hq : emu.host.ucQuit = true
          · exact .inl ⟨hf, .passEnd, (if_neg hon).trans (if_pos hq), fun _ => (if_neg hon).trans (if_pos hq)⟩
          · right
            refine ⟨⟨i, hlt⟩, hf, rfl, by simpa using hon, by simpa using hq, ?_⟩
            rw [if_neg hon, if_neg hq]
      · exact .inl ⟨hf, .passEnd, by rw [dif_neg hlt], fun _ => by rw [dif_neg hlt]⟩
  · exact .inl ⟨hf, if_neg hf⟩

/-- A fault is for good. -/
theorem fault_step (x : EmuSlice) (s : EmuState) (h : (emulateStep x s).1.emu.fault = none) : s.emu.fault = none := by
  by_contra hf
  rcases emulateStep_cases x s with ⟨-, hs⟩ | ⟨h', -⟩ | ⟨-, h', -⟩
  · rw [hs] at h; exact hf h
  · exact hf h'
  · exact hf h'

theorem emulate_concat (mem : HostBlock → ℕ → BitVec 8) (reg : Core → Reg → BitVec 64) (xs : List EmuSlice)
    (x : EmuSlice) : emulate mem reg (xs ++ [x]) = ((emulateStep x (emulate mem reg xs).1).1,
      (emulate mem reg xs).2 ++ (emulateStep x (emulate mem reg xs).1).2) :=
  Cmd.forEach_concat emulateStep xs x (EmuState.start mem reg)

/-! ## Monitors -/

/-- What a monitor needs of the pieces of the emulator. `out` relates it to the emulator between slices,
`ready` where a slice is to start, `guest` while the guest of a core runs. -/
structure EmuRule {κ : Type*} (m : Monitor κ EmuRec) (out : Emulator → κ → Prop)
    (ready guest : Core → Emulator → κ → Prop) : Prop where
  inject : ∀ core, Triple m (fun s k => out s k ∧ s.host.coresOnline core = true ∧ s.host.ucQuit = false)
    (onHost (gicEvent ⟨core, .sliceStart⟩ (.handleInterrupts core))) (ready core)
  enter : ∀ core, Triple m (ready core) (enterSlice core) (guest core)
  event : ∀ core e, Triple m (fun s k => s.fault = none ∧ guest core s k) (guestEvent core e) (guest core)
  leave : ∀ core x, Triple m (fun s k => s.fault = none ∧ guest core s k) (leaveSlice core x) out

section Rule

variable {κ : Type*} {m : Monitor κ EmuRec} {out : Emulator → κ → Prop} {ready guest : Core → Emulator → κ → Prop}

/-- Between the steps of the loop: `out`, unless a hook has faulted under a guest. -/
def Between (out : Emulator → κ → Prop) (guest : Core → Emulator → κ → Prop) (s : Emulator) (k : κ) : Prop :=
  out s k ∨ s.fault ≠ none ∧ ∃ core, guest core s k

theorem EmuRule.slice (h : EmuRule m out ready guest) (core : Core) (x : EmuSlice) :
    Triple m (ready core) (emuRunSlice core x) (Between out guest) := by
  refine (h.enter core).andThen (.andThen (.forEach (fun e => (h.event core e).under) x.events) ?_)
  intro s k hs
  by_cases hf : s.fault = none
  · have hleave : unlessFault (leaveSlice core x) s = leaveSlice core x s := if_pos hf
    rw [hleave]
    exact (h.leave core x s k ⟨hf, hs⟩).imp_right .inl
  · -- the slice ends inside its guest
    have hstop : unlessFault (leaveSlice core x) s = (s, []) := if_neg hf
    rw [hstop]
    exact ⟨trivial, .inr ⟨hf, core, hs⟩⟩

theorem EmuRule.step (h : EmuRule m out ready guest) (x : EmuSlice) :
    Triple m (fun s k => Between out guest s.emu k) (emulateStep x) (fun s k => Between out guest s.emu k) := by
  intro s k hs
  rcases emulateStep_cases x s with ⟨-, hstep⟩ | ⟨-, point, hstep, -⟩ | ⟨core, hf, -, hon, hq, hstep⟩
  · rw [hstep]; exact ⟨trivial, hs⟩
  · rw [hstep]; exact ⟨trivial, hs⟩
  · rw [hstep]
    rcases hs with hout | ⟨hf', -⟩
    · exact (h.inject core).andThen (h.slice core x) s.emu k ⟨hout, hon, hq⟩
    · exact absurd hf hf'

/-- **The rule for runs.** -/
theorem EmuRule.run (h : EmuRule m out ready guest) (mem : HostBlock → ℕ → BitVec 8) (reg : Core → Reg → BitVec 64)
    {k : κ} (hstart : out (Emulator.start mem reg) k) (xs : List EmuSlice) :
    m.Accepts k (emulate mem reg xs).2 ∧
      Between out guest (emulate mem reg xs).1.emu (m.run k (emulate mem reg xs).2) :=
  Triple.forEach h.step xs (EmuState.start mem reg) k (.inl hstart)

end Rule

/-! ## Accesses -/

section Access

variable {κ : Type*} {m : Monitor κ EmuRec} {R : Emulator → κ → Prop} {core : Core}

/-- A read reaches the interrupt controller, or nothing. -/
theorem readTarget_cases (core : Core) (size : BitVec 32) (target : Option (Device × BitVec 64)) :
    readTarget core size target = Cmd.skip ∨
      (∃ off, readTarget core size target = guestAct core (.gic (.gicdRead off size))) ∨
      ∃ off, readTarget core size target = guestAct core (.gic (.giccRead off size)) := by
  cases target with
  | none => exact .inl rfl
  | some t =>
    obtain ⟨dev, off⟩ := t
    cases dev
    case gicd => exact .inr (.inl ⟨off, rfl⟩)
    case gicc => exact .inr (.inr ⟨off, rfl⟩)
    all_goals exact .inl rfl

/-- A write reaches the interrupt controller, or at most the two devices with a state of their own. -/
theorem writeTarget_cases (core : Core) (data : BitVec 64) (size : BitVec 32) (target : Option (Device × BitVec 64)) :
    (∃ a, writeTarget core data size target = guestAct core (.gic a)) ∨
      ∀ s, (∃ mc fifos, (writeTarget core data size target s).1 = { s with mc := mc, fifos := fifos }) ∧
        ∀ o ∈ (writeTarget core data size target s).2, ∃ out, o = .uart out := by
  cases target with
  | none => exact .inr fun s => ⟨⟨s.mc, s.fifos, rfl⟩, by simp [writeTarget]⟩
  | some t =>
    obtain ⟨dev, off⟩ := t
    cases dev
    case gicd => exact .inl ⟨_, rfl⟩
    case gicc => exact .inl ⟨_, rfl⟩
    case mc => exact .inr fun s => ⟨⟨_, s.fifos, rfl⟩, by simp [writeTarget, writeDevice]⟩
    case uart =>
      refine .inr fun s => ⟨⟨s.mc, _, rfl⟩, fun o ho => ?_⟩
      obtain ⟨out, -, hout⟩ := List.mem_map.1 ho
      exact ⟨out, hout.symm⟩
    all_goals exact .inr fun s => ⟨⟨s.mc, s.fifos, rfl⟩, by simp [writeTarget, writeDevice]⟩

/-- A read, for a monitor that it tells nothing: what matters is its effect on the interrupt controller. -/
theorem Triple.read (hread : ∀ s k, R s k → ∀ addr size target value, m.Stays k (.read core addr size target value))
    (hgic : ∀ a, Triple m R (guestAct core (.gic a)) R) (addr : BitVec 64) (size : BitVec 32) (timeUs : BitVec 64) :
    Triple m R (emuRead core addr size timeUs) R := by
  intro s
  refine Triple.andThen (R := R) (.stays (fun _ _ hs => hs) fun s k hs o ho => ?_) ?_ s
  · rw [List.mem_singleton.1 ho]
    exact hread s k hs _ _ _ _
  rcases readTarget_cases core size (s.host.window core addr) with h | ⟨off, h⟩ | ⟨off, h⟩
  · rw [h]; exact .skip
  · rw [h]; exact hgic _
  · rw [h]; exact hgic _

/-- A write likewise; the devices of their own are not in the relation. -/
theorem Triple.write (hwrite : ∀ s k, R s k → ∀ addr data size target, m.Stays k (.write core addr data size target))
    (huart : ∀ s k, R s k → ∀ o, m.Stays k (.uart o)) (hgic : ∀ a, Triple m R (guestAct core (.gic a)) R)
    (hdev : ∀ s k mc fifos, R s k → R { s with mc := mc, fifos := fifos } k) (addr data : BitVec 64)
    (size : BitVec 32) : Triple m R (emuWrite core addr data size) R := by
  intro s
  refine Triple.andThen (R := R) (.stays (fun _ _ hs => hs) fun s k hs o ho => ?_) ?_ s
  · rw [List.mem_singleton.1 ho]
    exact hwrite s k hs _ _ _ _
  rcases writeTarget_cases core data size (s.host.window core addr) with ⟨a, h⟩ | h
  · rw [h]; exact hgic a
  · refine .stays (fun s k hs => ?_) fun s k hs o ho => ?_
    · obtain ⟨mc, fifos, hend⟩ := (h s).1
      rw [hend]
      exact hdev s k mc fifos hs
    · obtain ⟨out, rfl⟩ := (h s).2 o ho
      exact huart s k hs out

end Access

/-! ## Reads of guest memory -/

/-- The command changes nothing but the fault, and its records are walks and strings in host memory as it is. -/
def Reads (core : Core) (c : Cmd Emulator EmuRec) : Prop := ∀ s, (∃ f, (c s).1 = { s with fault := f }) ∧ ∀ o ∈ (c s).2,
  (∃ engine ttbr addr, o = .walk core engine ttbr addr (walkReached (ucMmuWalk s.host.mem ttbr.1 ttbr.2 addr))) ∨
    ∃ ptr, o = .print core ptr (hostString s.host.mem ptr)

theorem walk_reads (core engine : Core) (ttbr : BitVec 64 × BitVec 64) (addr : BitVec 64) :
    Reads core (emuWalk core engine ttbr addr) :=
  fun _ => ⟨⟨_, rfl⟩, fun _ ho => .inl ⟨engine, ttbr, addr, List.mem_singleton.1 ho⟩⟩

theorem print_reads (core : Core) (ptr : Option HostPtr) : Reads core (emuPrint core ptr) :=
  fun _ => ⟨⟨_, rfl⟩, fun _ ho => .inr ⟨ptr, List.mem_singleton.1 ho⟩⟩

theorem invalid_reads (core : Core) (type : BitVec 32) (address : BitVec 64) (ttbr : Core → BitVec 64 × BitVec 64) :
    Reads core (emuMemInvalid core type address ttbr) := by
  intro s
  unfold emuMemInvalid
  generalize walkedEngines core type = engines
  induction engines generalizing s with
  | nil => exact ⟨⟨s.fault, rfl⟩, by simp⟩
  | cons engine engines ih =>
    rw [Cmd.forEach_cons]
    by_cases hf : s.fault = none
    · have hwalk : unlessFault (emuWalk core engine (ttbr engine) address) s =
          emuWalk core engine (ttbr engine) address s := if_pos hf
      rw [hwalk]
      -- memory is the same in the rounds that follow
      obtain ⟨⟨f, hend⟩, hrec⟩ := ih (emuWalk core engine (ttbr engine) address s).1
      refine ⟨⟨f, hend⟩, fun o ho => ?_⟩
      rcases List.mem_append.1 ho with ho | ho
      · exact .inl ⟨engine, ttbr engine, address, List.mem_singleton.1 ho⟩
      · exact hrec o ho
    · have hstop : unlessFault (emuWalk core engine (ttbr engine) address) s = (s, []) := if_neg hf
      rw [hstop]
      exact ih s

theorem hook_reads (core : Core) (exceptno : BitVec 32) (i : ExceptionIn) : Reads core (emuReads core exceptno i) := by
  have hnone : ∀ s : Emulator, (∃ f, s = { s with fault := f }) := fun s => ⟨s.fault, rfl⟩
  intro s
  unfold emuReads
  split
  · split
    · exact print_reads core _ s
    · exact ⟨hnone s, by simp⟩
  · split
    · exact walk_reads core core _ _ s
    · exact ⟨hnone s, by simp⟩

namespace Reads

variable {core : Core} {c : Cmd Emulator EmuRec} (h : Reads core c)
include h

theorem keeps {τ : Type*} {part : Emulator → τ} (hpart : ∀ s f, part { s with fault := f } = part s) :
    Keeps part c := by
  intro s
  obtain ⟨f, hend⟩ := (h s).1
  rw [hend]
  exact hpart s f

theorem leaves {P : EmuRec → Prop} (hwalk : ∀ engine ttbr addr calls, P (.walk core engine ttbr addr calls))
    (hprint : ∀ ptr str, P (.print core ptr str)) : Leaves P c := by
  intro s o ho
  rcases (h s).2 o ho with ⟨engine, ttbr, addr, rfl⟩ | ⟨ptr, rfl⟩
  · exact hwalk engine ttbr addr _
  · exact hprint ptr _

/-- For a monitor that reads tell nothing. -/
theorem triple {κ : Type*} {m : Monitor κ EmuRec} {R : Emulator → κ → Prop}
    (hfault : ∀ s f k, R s k → R { s with fault := f } k)
    (hwalk : ∀ engine ttbr addr calls, m.Ignores (.walk core engine ttbr addr calls))
    (hprint : ∀ ptr str, m.Ignores (.print core ptr str)) : Triple m R c R := by
  refine .quiet (fun s k hs => ?_) (h.leaves hwalk hprint)
  obtain ⟨f, hend⟩ := (h s).1
  rw [hend]
  exact hfault s f k hs

end Reads

/-! ## Components -/

section Sees

variable {τ ι υ : Type*} {v : Component Emulator EmuRec τ ι υ}

/-- A component of the emulator, in the state of the run loop. -/
def Component.looped (v : Component Emulator EmuRec τ ι υ) : Component EmuState EmuRec τ ι υ where
  part s := v.part s.emu
  inp := v.inp
  out := v.out
  step := v.step

/-- A component that the host has no part in. -/
structure Component.OffHost (v : Component Emulator EmuRec τ ι υ) : Prop where
  part : ∀ s h, v.part { s with host := h } = v.part s
  inp : ∀ mo, v.inp (.host mo) = []
  out : ∀ mo, v.out (.host mo) = []

theorem Component.OffHost.sees (h : v.OffHost) (c : Cmd Host Moment) : v.Sees (onHost c) := by
  refine .quiet (fun s => h.part s _) fun s o ho => ?_
  obtain ⟨mo, -, rfl⟩ := List.mem_map.1 ho
  exact ⟨h.inp mo, h.out mo⟩

/-- **A component runs on its own inputs** over every run of the emulator, if it does so in the four pieces. -/
theorem emulate_sees (hinject : ∀ core, v.Sees (onHost (gicEvent ⟨core, .sliceStart⟩ (.handleInterrupts core))))
    (henter : ∀ core, v.Sees (enterSlice core)) (hevent : ∀ core e, v.Sees (guestEvent core e))
    (hleave : ∀ core x, v.Sees (leaveSlice core x)) (mem : HostBlock → ℕ → BitVec 8) (reg : Core → Reg → BitVec 64)
    (xs : List EmuSlice) :
    Cmd.forEach v.step (v.inputs (emulate mem reg xs).2) (v.part (Emulator.start mem reg)) =
      (v.part (emulate mem reg xs).1.emu, v.outputs (emulate mem reg xs).2) := by
  have hslice : ∀ core x, v.Sees (emuRunSlice core x) := fun core x =>
    (henter core).andThen (.andThen (.forEach (fun e => .guard (hevent core e)) x.events) (.guard (hleave core x)))
  refine Component.Sees.forEach (v := v.looped) (fun x s => ?_) xs (EmuState.start mem reg)
  rcases emulateStep_cases x s with ⟨-, hs⟩ | ⟨-, point, hs, -⟩ | ⟨core, -, -, -, -, hs⟩
  · rw [hs]; rfl
  · rw [hs]; rfl
  · rw [hs]; exact (hinject core).andThen (hslice core x) s.emu

/-- The same for a component off the host: only the start of a guest and its events matter. -/
theorem Component.OffHost.emulate_sees (hoff : v.OffHost)
    (hstart : ∀ core, v.Sees (Cmd.emit id fun s => .emuStart core (s.reg core .pc) (s.reg core)))
    (hevent : ∀ core e, v.Sees (guestEvent core e)) (mem : HostBlock → ℕ → BitVec 8) (reg : Core → Reg → BitVec 64)
    (xs : List EmuSlice) :
    Cmd.forEach v.step (v.inputs (emulate mem reg xs).2) (v.part (Emulator.start mem reg)) =
      (v.part (emulate mem reg xs).1.emu, v.outputs (emulate mem reg xs).2) :=
  Mooooooo.emulate_sees (fun _ => hoff.sees _) (fun core => (hoff.sees _).andThen (hstart core)) hevent
    (fun _ _ => hoff.sees _) mem reg xs

end Sees

end Mooooooo
