import Mooooooo.Proof.Mapping

/-!
# The run loop

* `runCore_sched`, `runCore_quit`, `runCore_online`: what one core's turn does to the
  schedule, to `uc_quit` and to the cores online.
* `run_law_iff`: **the loop ends exactly when quitting was requested**, if every slice
  that leaves `uc_quit` false returns 0.
-/

namespace Mooooooo

/-! ## One core's turn -/

/-- The calls that `uc_run_stuff` itself makes. -/
inductive SchedCall
  | inject (core : Core)
  | slice (core : Core)
deriving DecidableEq, Repr

def RunCall.sched : RunCall → Option SchedCall
  | .handleInterrupts c _ => some (.inject c)
  | .runSlice c => some (.slice c)
  | _ => none

/-- The calls of `uc_run_stuff`, in order. -/
def schedCalls (ms : List Moment) : List SchedCall := ms.filterMap fun mo => mo.call.sched

theorem schedCalls_append (ms ms' : List Moment) :
    schedCalls (ms ++ ms') = schedCalls ms ++ schedCalls ms' := List.filterMap_append

theorem sched_of_emu {call : RunCall} (h : call.phase = .emu) : call.sched = none := by
  cases call <;> simp_all [RunCall.phase, RunCall.sched]

theorem guest_sched (core : Core) (acts : List GuestAct) (h : Host) :
    schedCalls (guestRun core acts h).2 = [] := by
  unfold schedCalls
  rw [List.filterMap_eq_nil_iff]
  exact fun mo hmo => sched_of_emu (guest_moment hmo).2.2

/-- The calls of a core's turn: one injection and one slice. -/
def turnCalls (c : Core) : List SchedCall := [.inject c, .slice c]

theorem runCore_sched (core : Core) (x : Slice) {h : Host} (hi : h.Idle) :
    schedCalls (runCore core x h).2 = turnCalls core := by
  rw [runCore_eq, slice_eq core x (hi.inject core)]
  simp only
  rw [← List.singleton_append, schedCalls_append, schedCalls_append, schedCalls_append, guest_sched]
  simp [schedCalls, beforeGuest, afterGuest, RunCall.sched, turnCalls]

/-! ### `uc_quit` -/

theorem guestStep_quit (core : Core) (act : GuestAct) (h : Host) (hq : h.ucQuit = true) :
    (guestStep core act h).1.ucQuit = true := by
  cases act with
  | store addr byte =>
    simp only [guestStep, record, Cmd.emit_apply, Host.writeByte]
    split <;> exact hq
  | load addr => exact hq
  | gic a => exact hq
  | smcCpuOn cpu => exact hq
  | quit => rfl

theorem guest_quit {core : Core} {acts : List GuestAct} {h : Host} (hq : h.ucQuit = true) :
    (Cmd.forEach (guestStep core) acts h).1.ucQuit = true :=
  Cmd.forEach_inv (I := fun h : Host => h.ucQuit = true) (guestStep_quit core) acts hq

/-- Once a guest has set `uc_quit` it stays set. -/
theorem guest_moment_quit {core : Core} {acts : List GuestAct} {h : Host} {mo : Moment}
    (hmo : mo ∈ (guestRun core acts h).2) (hq : mo.host.ucQuit = true) :
    (guestRun core acts h).1.ucQuit = true := by
  obtain ⟨pre, act, post, rfl, hstep⟩ := Cmd.mem_forEach hmo
  rw [(guestStep_moment hstep).1] at hq
  unfold guestRun
  rw [Cmd.forEach_append, Cmd.forEach_cons]
  exact guest_quit hq

theorem afterSlice_quit (core : Core) (x : Slice) (h : Host) :
    (afterSlice core x h).ucQuit = (decide (x.err ≠ 0) || (guestRun core x.acts h).1.ucQuit) := by
  unfold afterSlice
  dsimp only [Host.withBanks]
  split <;> simp_all

theorem slice_quit (core : Core) (x : Slice) {h : Host} (hi : h.Idle) :
    (ucCoreRunSlice core x h).1.ucQuit = (decide (x.err ≠ 0) || (guestRun core x.acts h).1.ucQuit) := by
  rw [slice_eq core x hi]
  exact afterSlice_quit core x h

/-- A turn leaves `uc_quit` set if its guest did, or if `uc_emu_start` failed. -/
theorem runCore_quit (core : Core) (x : Slice) {h : Host} (hi : h.Idle) : (runCore core x h).1.ucQuit =
    (decide (x.err ≠ 0) || (guestRun core x.acts (h.inject core)).1.ucQuit) := by
  rw [runCore_eq]
  dsimp only
  exact slice_quit core x (hi.inject core)

/-- A turn without guest effects and without an error leaves `uc_quit` as it was. -/
theorem runCore_quit_nil (core : Core) (ret : BitVec 32) {h : Host} (hi : h.Idle) :
    (runCore core ⟨[], 0, ret⟩ h).1.ucQuit = h.ucQuit := by
  rw [runCore_quit core _ hi, decide_eq_false (not_not.2 rfl), Bool.false_or]
  rfl

/-- Quitting is requested at a moment: `uc_quit` is set, or `uc_emu_start` has failed. -/
def Moment.Stops (mo : Moment) : Prop :=
  mo.host.ucQuit = true ∨ ∃ core err, mo.call = .emuEnd core err ∧ err ≠ 0

/-- A request to quit during a slice is seen after it. -/
theorem slice_stops {core : Core} {x : Slice} {h : Host} (hi : h.Idle) {mo : Moment}
    (hmo : mo ∈ (ucCoreRunSlice core x h).2) (hs : mo.Stops) : (ucCoreRunSlice core x h).1.ucQuit = true := by
  have hguest : (guestRun core x.acts h).1.ucQuit = true → (ucCoreRunSlice core x h).1.ucQuit = true := by
    intro hg
    rw [slice_quit core x hi, hg, Bool.or_true]
  rcases slice_parts hi hmo with hpre | hg | hpost
  · -- nothing before the guest changes `uc_quit`, which the guest leaves set
    have hh : mo.host.ucQuit = h.ucQuit ∧ ∀ c err, mo.call ≠ .emuEnd c err := by
      simp only [beforeGuest, List.mem_cons, List.not_mem_nil, or_false] at hpre
      rcases hpre with rfl | rfl | rfl | rfl | rfl <;> exact ⟨rfl, by simp⟩
    rcases hs with hq | ⟨c, err, hcall, -⟩
    · have hq' : (h.withBanks core banks).ucQuit = true := hh.1.symm.trans hq
      exact hguest (guest_quit hq')
    · exact absurd hcall (hh.2 c err)
  · rcases hs with hq | ⟨c, err, hcall, -⟩
    · exact hguest (guest_moment_quit hg hq)
    · have hp := (guest_moment hg).2.2
      rw [hcall] at hp
      simp [RunCall.phase] at hp
  · have hh : mo.host.ucQuit = (afterSlice core x h).ucQuit ∧
        ∀ c err, mo.call = .emuEnd c err → err = x.err := by
      simp only [afterGuest, List.mem_cons, List.not_mem_nil, or_false] at hpost
      rcases hpost with rfl | rfl | rfl | rfl | rfl
      · exact ⟨rfl, fun c err hcall => by cases hcall; rfl⟩
      all_goals exact ⟨rfl, by simp⟩
    rw [slice_quit core x hi]
    rcases hs with hq | ⟨c, err, hcall, herr⟩
    · rw [← afterSlice_quit, ← hh.1]; exact hq
    · rw [hh.2 c err hcall] at herr
      rw [decide_eq_true herr, Bool.true_or]

theorem runCore_stops {core : Core} {x : Slice} {h : Host} (hi : h.Idle) (hq : h.ucQuit = false) {mo : Moment}
    (hmo : mo ∈ (runCore core x h).2) (hs : mo.Stops) : (runCore core x h).1.ucQuit = true := by
  rw [runCore_eq] at hmo ⊢
  dsimp only at hmo ⊢
  rcases List.mem_cons.1 hmo with rfl | hmo
  · rcases hs with hq' | ⟨c, err, hcall, -⟩
    · have hq'' : h.ucQuit = true := hq'
      rw [hq] at hq''
      simp at hq''
    · simp at hcall
  · exact slice_stops (hi.inject core) hmo hs

/-! ### The cores online -/

theorem guestStep_online (core : Core) (act : GuestAct) (h : Host) (c : Core) :
    (guestStep core act h).1.coresOnline c = (h.coresOnline c || decide (act = .smcCpuOn c)) := by
  cases act with
  | store addr byte =>
    simp only [guestStep, record, Cmd.emit_apply, Host.writeByte]
    split <;> simp
  | load addr => simp [guestStep, record]
  | gic a => simp [guestStep, gicEvent, record]
  | quit => simp [guestStep, record]
  | smcCpuOn cpu =>
    by_cases hc : c = cpu
    · subst hc; simp [guestStep, record]
    · simp [guestStep, record, hc, Ne.symm hc]

/-- After a guest, a core is online if it was or the guest has brought it online. -/
theorem guest_online (core : Core) (acts : List GuestAct) (h : Host) (c : Core) :
    (Cmd.forEach (guestStep core) acts h).1.coresOnline c = (h.coresOnline c || decide (.smcCpuOn c ∈ acts)) := by
  induction acts generalizing h with
  | nil => simp
  | cons act acts ih =>
    rw [Cmd.forEach_cons]
    simp only [ih, guestStep_online, List.mem_cons, Bool.decide_or, Bool.or_assoc]
    congr 2
    exact decide_eq_decide.2 eq_comm

theorem runCore_online (core : Core) (x : Slice) {h : Host} (hi : h.Idle) (c : Core) :
    (runCore core x h).1.coresOnline c = (h.coresOnline c || decide (.smcCpuOn c ∈ x.acts)) := by
  have hafter : (afterSlice core x (h.inject core)).coresOnline c =
      (guestRun core x.acts (h.inject core)).1.coresOnline c := by
    unfold afterSlice
    dsimp only [Host.withBanks]
    split <;> rfl
  rw [runCore_eq, slice_eq core x (hi.inject core)]
  dsimp only
  rw [hafter]
  exact guest_online core x.acts _ c

/-! ### The end of a slice -/

/-- A turn ends with the end of its slice. -/
theorem runCore_end (core : Core) (x : Slice) {h : Host} (hi : h.Idle) :
    ⟨.sliceEnd core x.err x.ret, (runCore core x h).1⟩ ∈ (runCore core x h).2 := by
  rw [runCore_eq, slice_eq core x (hi.inject core)]
  simp [afterGuest]

/-- A turn has no other slice end. -/
theorem runCore_end_unique {core : Core} {x : Slice} {h : Host} (hi : h.Idle) {mo : Moment}
    (hmo : mo ∈ (runCore core x h).2) {c : Core} {err ret : BitVec 32} (hcall : mo.call = .sliceEnd c err ret) :
    err = x.err ∧ ret = x.ret ∧ mo.host = (runCore core x h).1 := by
  have hhost : (runCore core x h).1 = afterSlice core x (h.inject core) := by
    rw [runCore_eq, slice_eq core x (hi.inject core)]
  rcases runCore_parts hi hmo with rfl | hpre | hg | hpost
  · simp at hcall
  · simp only [beforeGuest, List.mem_cons, List.not_mem_nil, or_false] at hpre
    rcases hpre with rfl | rfl | rfl | rfl | rfl <;> simp at hcall
  · have hp := (guest_moment hg).2.2
    rw [hcall] at hp
    simp [RunCall.phase] at hp
  · simp only [afterGuest, List.mem_cons, List.not_mem_nil, or_false] at hpost
    rcases hpost with rfl | rfl | rfl | rfl | rfl
    · simp at hcall
    · simp at hcall
    · simp at hcall
    · simp at hcall
    · cases hcall
      exact ⟨rfl, rfl, hhost.symm⟩

/-- A slice that failed leaves `uc_quit` set. -/
theorem runCore_err (core : Core) (x : Slice) {h : Host} (hi : h.Idle) (he : x.err ≠ 0) :
    (runCore core x h).1.ucQuit = true := by
  rw [runCore_quit core x hi, decide_eq_true he, Bool.true_or]

/-- A slice end in a run is that of a turn: its error, its value and the host it leaves. -/
theorem run_sliceEnd {mem : HostBlock → ℕ → BitVec 8} {xs : List Slice} {mo : Moment}
    (hmo : mo ∈ (ucRunStuff mem xs).2) {c : Core} {err ret : BitVec 32} (hcall : mo.call = .sliceEnd c err ret) :
    ∃ pre x post, ∃ core : Core, xs = pre ++ x :: post ∧ err = x.err ∧ ret = x.ret ∧
      ucRunStuffStep x (ucRunStuff mem pre).1 = (⟨if x.ret ≠ 0 then .passEnd else .forHead (core + 1), x.ret,
        mo.host⟩, (runCore core x (ucRunStuff mem pre).1.host).2) ∧
      mo.host = (runCore core x (ucRunStuff mem pre).1.host).1 := by
  obtain ⟨pre, x, post, core, hsplit, hstep, hturn⟩ := run_turn hmo
  obtain ⟨herr, hret, hhost⟩ := runCore_end_unique (idle_run mem pre) hturn hcall
  exact ⟨pre, x, post, core, hsplit, herr, hret, by rw [hhost]; exact hstep, hhost⟩

/-! ## The steps of the loops -/

section Steps

variable {x : Slice} {s : RunState}

theorem step_whileHead (hp : s.point = .whileHead) (he : s.err = 0) (hq : s.host.ucQuit = false) :
    ucRunStuffStep x s = ({ s with point := .forHead 0 }, []) := by
  simp [ucRunStuffStep, hp, he, hq]

theorem step_whileHead_err (hp : s.point = .whileHead) (he : s.err ≠ 0) :
    ucRunStuffStep x s = ({ s with point := .left }, []) := by
  simp only [ucRunStuffStep, hp, he, false_and, if_false]

theorem step_left (hp : s.point = .left) : ucRunStuffStep x s = (s, []) := by
  simp [ucRunStuffStep, hp]

theorem step_passEnd (hp : s.point = .passEnd) (hq : s.host.ucQuit = false) :
    ucRunStuffStep x s = ({ s with point := .whileHead }, []) := by
  simp [ucRunStuffStep, hp, hq]

theorem step_break {i : ℕ} (hp : s.point = .forHead i)
    (hoff : ∀ hi : i < 4, s.host.coresOnline ⟨i, hi⟩ = false) :
    ucRunStuffStep x s = ({ s with point := .passEnd }, []) := by
  simp only [ucRunStuffStep, hp]
  split
  · rename_i hi; rw [if_pos (hoff hi)]
  · rfl

theorem step_turn {core : Core} (hp : s.point = .forHead core) (hon : s.host.coresOnline core = true)
    (hq : s.host.ucQuit = false) :
    ucRunStuffStep x s = (⟨if x.ret ≠ 0 then .passEnd else .forHead (core + 1), x.ret,
      (runCore core x s.host).1⟩, (runCore core x s.host).2) := by
  simp only [ucRunStuffStep, hp, Fin.is_lt, dite_true, hon, hq, Bool.true_eq_false, Bool.false_eq_true, if_false]

end Steps

/-! ## When the loop ends -/

/-- The call starts an injection or a slice. -/
def Moment.Starts (mo : Moment) : Prop := mo.call.sched ≠ none

/-- The loop ends exactly when quitting was requested, along a run: nothing is started
after a request, and while every slice so far succeeded and left `uc_quit` false, the
loop is not left and another slice starts within four steps. -/
structure RunLaw (mem : HostBlock → ℕ → BitVec 8) (xs : List Slice) : Prop where
  stop : (ucRunStuff mem xs).2.Pairwise fun a b => a.Stops → ¬b.Starts
  goOn : ∀ pre post, xs = pre ++ post →
    (∀ mo ∈ (ucRunStuff mem pre).2, ∀ c err ret, mo.call = .sliceEnd c err ret →
      err = 0 ∧ mo.host.ucQuit = false) →
    (ucRunStuff mem pre).1.point ≠ .left ∧
      ∀ more, 4 ≤ more.length → ∃ mo ∈ (Cmd.forEach ucRunStuffStep more (ucRunStuff mem pre).1).2,
        ∃ c, mo.call = .runSlice c

/-- After a request to quit `uc_quit` is set. -/
theorem stops_quit {mem : HostBlock → ℕ → BitVec 8} {xs : List Slice} {mo : Moment}
    (hmo : mo ∈ (ucRunStuff mem xs).2) (hs : mo.Stops) : (ucRunStuff mem xs).1.host.ucQuit = true := by
  induction xs using List.reverseRecOn with
  | nil => simp [ucRunStuff] at hmo
  | append_singleton xs x ih =>
    rw [ucRunStuff_concat] at hmo ⊢
    dsimp only at hmo ⊢
    rcases step_cases x (ucRunStuff mem xs).1 with ⟨point, hstep⟩ | ⟨core, -, -, hq, hstep⟩
    · rw [hstep] at hmo ⊢
      rw [List.append_nil] at hmo
      exact ih hmo
    · rw [hstep] at hmo ⊢
      rcases List.mem_append.1 hmo with hmo | hmo
      · rw [ih hmo] at hq
        simp at hq
      · dsimp only
        exact runCore_stops (idle_run mem xs) hq hmo hs

/-- Within a turn nothing is started after a request to quit. -/
theorem runCore_stop (core : Core) (x : Slice) {h : Host} (hi : h.Idle) (hq : h.ucQuit = false) :
    (runCore core x h).2.Pairwise fun a b => a.Stops → ¬b.Starts := by
  -- what follows the injection and the start of the slice starts nothing
  have hrest : ∀ mo ∈ (beforeGuest core (h.inject core)).tail ++ (guestRun core x.acts (h.inject core)).2 ++
      afterGuest core x (afterSlice core x (h.inject core)), ¬mo.Starts := by
    intro mo hmo hstart
    rcases List.mem_append.1 hmo with hmo | hpost
    · rcases List.mem_append.1 hmo with hpre | hg
      · simp only [beforeGuest, List.tail_cons, List.mem_cons, List.not_mem_nil, or_false] at hpre
        rcases hpre with rfl | rfl | rfl | rfl <;> exact hstart rfl
      · exact hstart (sched_of_emu (guest_moment hg).2.2)
    · simp only [afterGuest, List.mem_cons, List.not_mem_nil, or_false] at hpost
      rcases hpost with rfl | rfl | rfl | rfl | rfl <;> exact hstart rfl
  have hquiet : ∀ mo : Moment, mo.host.ucQuit = h.ucQuit → (∀ c err, mo.call ≠ .emuEnd c err) → ¬mo.Stops := by
    rintro mo hh hcall (hs | ⟨c, err, hc, -⟩)
    · rw [hh, hq] at hs
      simp at hs
    · exact hcall c err hc
  rw [runCore_eq, slice_eq core x (hi.inject core)]
  refine List.pairwise_cons.2 ⟨fun b _ hs => absurd hs (hquiet _ rfl (by simp)), ?_⟩
  refine List.pairwise_cons.2 ⟨fun b _ hs => absurd hs (hquiet _ rfl (by simp)), ?_⟩
  exact List.pairwise_of_forall_mem_list fun a _ b hb _ => hrest b hb

/-- Nothing is started after a request to quit, over every run. -/
theorem run_stop (mem : HostBlock → ℕ → BitVec 8) (xs : List Slice) :
    (ucRunStuff mem xs).2.Pairwise fun a b => a.Stops → ¬b.Starts := by
  induction xs using List.reverseRecOn with
  | nil => exact List.Pairwise.nil
  | append_singleton xs x ih =>
    rw [ucRunStuff_concat]
    rcases step_cases x (ucRunStuff mem xs).1 with ⟨point, hstep⟩ | ⟨core, -, -, hq, hstep⟩
    · rw [hstep, List.append_nil]
      exact ih
    · rw [hstep]
      refine List.pairwise_append.2 ⟨ih, runCore_stop core x (idle_run mem xs) hq, fun a ha b _ hs => ?_⟩
      rw [stops_quit ha hs] at hq
      simp at hq

/-- The loop goes on: no error, `uc_quit` false, core 0 online, and not left. -/
structure Running (s : RunState) : Prop where
  point : s.point ≠ .left
  err : s.err = 0
  quit : s.host.ucQuit = false
  online : s.host.coresOnline 0 = true

theorem start_running (mem : HostBlock → ℕ → BitVec 8) : Running (RunState.start mem) := by
  have hquit : ∀ (core : Core) (h : Host), (ucInit core h).ucQuit = h.ucQuit := fun _ _ => rfl
  refine ⟨by simp [RunState.start], rfl, ?_, by simp [RunState.start]⟩
  show (ucInit 3 (ucInit 2 (ucInit 1 (ucInit 0 (Host.zero mem))))).ucQuit = false
  rw [hquit, hquit, hquit, hquit]
  rfl

/-- The point of a running loop: one of the tests, a break of the `for`, or a turn. -/
theorem Running.cases {s : RunState} (hr : Running s) :
    (∀ x, ucRunStuffStep x s = ({ s with point := .forHead 0 }, [])) ∨
    s.point = .passEnd ∨
    (∀ x, ucRunStuffStep x s = ({ s with point := .passEnd }, [])) ∨
    ∃ core : Core, s.point = .forHead core ∧ s.host.coresOnline core = true := by
  cases hp : s.point with
  | left => exact absurd hp hr.point
  | whileHead => exact .inl fun x => step_whileHead hp hr.err hr.quit
  | passEnd => exact .inr (.inl rfl)
  | forHead i =>
    by_cases hon : ∃ hi : i < 4, s.host.coresOnline ⟨i, hi⟩ = true
    · obtain ⟨hi, hon⟩ := hon
      exact .inr (.inr (.inr ⟨⟨i, hi⟩, rfl, hon⟩))
    · exact .inr (.inr (.inl fun x => step_break hp fun hi => by simpa using fun h => hon ⟨hi, h⟩))

/-- A slice starts within `n` steps. -/
def StartsWithin (n : ℕ) (s : RunState) : Prop :=
  ∀ more, n ≤ more.length → ∃ mo ∈ (Cmd.forEach ucRunStuffStep more s).2, ∃ c, mo.call = .runSlice c

theorem StartsWithin.mono {n m : ℕ} {s : RunState} (h : StartsWithin n s) (hnm : n ≤ m) : StartsWithin m s :=
  fun more hmore => h more (hnm.trans hmore)

theorem startsWithin_quiet {n : ℕ} {s s' : RunState} (hstep : ∀ x, ucRunStuffStep x s = (s', []))
    (h : StartsWithin n s') : StartsWithin (n + 1) s := by
  intro more hmore
  cases more with
  | nil => simp at hmore
  | cons x rest =>
    obtain ⟨mo, hmo, hc⟩ := h rest (by simpa using hmore)
    refine ⟨mo, ?_, hc⟩
    rw [Cmd.forEach_cons, hstep]
    exact hmo

theorem startsWithin_turn {s : RunState} {core : Core} (hp : s.point = .forHead core)
    (hon : s.host.coresOnline core = true) (hq : s.host.ucQuit = false) (hi : s.host.Idle) :
    StartsWithin 1 s := by
  intro more hmore
  cases more with
  | nil => simp at hmore
  | cons x rest =>
    refine ⟨⟨.runSlice core, s.host.inject core⟩, ?_, core, rfl⟩
    rw [Cmd.forEach_cons, step_turn hp hon hq, runCore_eq, slice_eq core x (hi.inject core)]
    simp [beforeGuest]

/-- **A running loop starts another slice** within four steps. -/
theorem Running.startsWithin {s : RunState} (hr : Running s) (hi : s.host.Idle) : StartsWithin 4 s := by
  have h1 : StartsWithin 1 { s with point := .forHead 0 } :=
    startsWithin_turn (show _ = RunPoint.forHead (0 : Core) from rfl) hr.online hr.quit hi
  have h2 : StartsWithin 2 { s with point := .whileHead } :=
    startsWithin_quiet (fun x => step_whileHead rfl hr.err hr.quit) h1
  have h3 : StartsWithin 3 { s with point := .passEnd } :=
    startsWithin_quiet (fun x => step_passEnd rfl hr.quit) h2
  rcases hr.cases with hw | hp | hb | ⟨core, hp, hon⟩
  · exact (startsWithin_quiet hw h1).mono (by omega)
  · have hs : s = { s with point := .passEnd } := by rw [← hp]
    rw [hs]
    exact h3.mono (by omega)
  · exact startsWithin_quiet hb h3
  · exact (startsWithin_turn hp hon hr.quit hi).mono (by omega)

/-- The slices of a run that leave `uc_quit` false return 0. -/
def ReturnsZero (mem : HostBlock → ℕ → BitVec 8) (xs : List Slice) : Prop :=
  ∀ mo ∈ (ucRunStuff mem xs).2, ∀ c err ret, mo.call = .sliceEnd c err ret → mo.host.ucQuit = false → ret = 0

/-- Every slice of a run succeeds and leaves `uc_quit` false. -/
def AllGood (mem : HostBlock → ℕ → BitVec 8) (xs : List Slice) : Prop :=
  ∀ mo ∈ (ucRunStuff mem xs).2, ∀ c err ret, mo.call = .sliceEnd c err ret → err = 0 ∧ mo.host.ucQuit = false

theorem run_mono (mem : HostBlock → ℕ → BitVec 8) (pre post : List Slice) :
    (ucRunStuff mem pre).2 ⊆ (ucRunStuff mem (pre ++ post)).2 := by
  rw [ucRunStuff_append]
  exact List.subset_append_left _ _

/-- While slices are good and return 0, the loop runs. -/
theorem good_running {mem : HostBlock → ℕ → BitVec 8} {xs : List Slice} (hgood : AllGood mem xs)
    (hret : ReturnsZero mem xs) : Running (ucRunStuff mem xs).1 := by
  induction xs using List.reverseRecOn with
  | nil => exact start_running mem
  | append_singleton xs x ih =>
    have hr := ih (fun mo hmo => hgood mo (run_mono mem xs [x] hmo)) fun mo hmo =>
      hret mo (run_mono mem xs [x] hmo)
    have hmoves : ∀ point ≠ RunPoint.left, Running { (ucRunStuff mem xs).1 with point := point } :=
      fun point hp => ⟨hp, hr.err, hr.quit, hr.online⟩
    have hi := idle_run mem xs
    unfold AllGood at hgood
    unfold ReturnsZero at hret
    rw [ucRunStuff_concat] at hgood hret ⊢
    dsimp only at hgood hret ⊢
    rcases hr.cases with hw | hp | hb | ⟨core, hp, hon⟩
    · rw [hw]; exact hmoves _ (by simp)
    · rw [step_passEnd hp hr.quit]; exact hmoves _ (by simp)
    · rw [hb]; exact hmoves _ (by simp)
    · -- the slice of this turn is good, so it returned 0 and the loop stays in the `for`
      rw [step_turn hp hon hr.quit] at hgood hret ⊢
      have hend := List.mem_append_right (ucRunStuff mem xs).2 (runCore_end core x hi)
      have hq := (hgood _ hend core x.err x.ret rfl).2
      have hzero := hret _ hend core x.err x.ret rfl hq
      refine ⟨by simp [hzero], hzero, hq, ?_⟩
      rw [runCore_online core x hi, hr.online, Bool.true_or]

/-- A left or failed loop starts nothing more. -/
theorem not_startsWithin_of_err {s : RunState} (hp : s.point = .passEnd) (he : s.err ≠ 0)
    (hq : s.host.ucQuit = false) : ¬StartsWithin 4 s := by
  intro h
  obtain ⟨mo, hmo, -⟩ := h [⟨[], 0, 0⟩, ⟨[], 0, 0⟩, ⟨[], 0, 0⟩, ⟨[], 0, 0⟩] le_rfl
  have h1 : ∀ x, ucRunStuffStep x s = ({ s with point := .whileHead }, []) := fun x => step_passEnd hp hq
  have h2 : ∀ x, ucRunStuffStep x { s with point := .whileHead } = ({ s with point := .left }, []) :=
    fun x => step_whileHead_err rfl he
  have h3 : ∀ x, ucRunStuffStep x { s with point := .left } = ({ s with point := .left }, []) :=
    fun x => step_left rfl
  simp [Cmd.forEach_cons, h1, h2, h3] at hmo

/-- While `uc_quit` is false at the end of a run, every slice of it was good. -/
theorem allGood_of_quit {mem : HostBlock → ℕ → BitVec 8} {xs : List Slice}
    (hquit : (ucRunStuff mem xs).1.host.ucQuit = false) : AllGood mem xs := by
  intro mo hmo c err ret hcall
  have hq : mo.host.ucQuit = false := by
    by_contra hne
    rw [stops_quit hmo (.inl (by simpa using hne))] at hquit
    simp at hquit
  refine ⟨?_, hq⟩
  by_contra herr
  obtain ⟨pre, x, post, core, -, rfl, -, -, hhost⟩ := run_sliceEnd hmo hcall
  rw [hhost, runCore_err core x (idle_run mem pre) herr] at hq
  simp at hq

/-- If the loop obeys the law, its good slices return 0. -/
theorem returnsZero_of_law {mem : HostBlock → ℕ → BitVec 8} {xs : List Slice} (h : RunLaw mem xs) :
    ReturnsZero mem xs := by
  intro mo hmo c err ret hcall hq
  by_contra hret
  obtain ⟨pre, x, post, core, hsplit, -, rfl, hstep, -⟩ := run_sliceEnd hmo hcall
  -- after that slice the loop is behind the `for`, with the value returned as `err`
  have hafter : (ucRunStuff mem (pre ++ [x])).1 = ⟨.passEnd, x.ret, mo.host⟩ := by
    rw [ucRunStuff_concat, hstep]
    dsimp only
    rw [if_pos hret]
  have hquit : (ucRunStuff mem (pre ++ [x])).1.host.ucQuit = false := by rw [hafter]; exact hq
  have hgo := (h.goOn (pre ++ [x]) post (by rw [hsplit]; simp) (allGood_of_quit hquit)).2
  refine not_startsWithin_of_err ?_ ?_ hquit hgo
  · rw [hafter]
  · rw [hafter]; exact hret

/-- **The loop ends exactly when quitting was requested** if and only if every slice that
leaves `uc_quit` false returns 0. -/
theorem run_law_iff (mem : HostBlock → ℕ → BitVec 8) (xs : List Slice) :
    RunLaw mem xs ↔ ReturnsZero mem xs := by
  refine ⟨returnsZero_of_law, fun hret => ⟨run_stop mem xs, fun pre post hsplit hgood => ?_⟩⟩
  have hr : Running (ucRunStuff mem pre).1 := good_running hgood fun mo hmo =>
    hret mo (by rw [hsplit]; exact run_mono mem pre post hmo)
  exact ⟨hr.point, hr.startsWithin (idle_run mem pre)⟩

/-- A first slice that succeeds, leaves `uc_quit` false and returns 1 ends the loop. -/
theorem garbage_return_ends_loop : ¬∀ mem xs, RunLaw mem xs := by
  intro h
  have hret := returnsZero_of_law (h (fun _ _ => 0) [⟨[], 0, 1⟩, ⟨[], 0, 1⟩])
  have hr := start_running fun _ _ => 0
  have hi := start_idle fun _ _ => 0
  have hend := runCore_end 0 ⟨[], 0, 1⟩ hi
  have hq : (runCore 0 ⟨[], 0, 1⟩ (RunState.start fun _ _ => 0).host).1.ucQuit = false := by
    rw [runCore_quit_nil 0 1 hi]
    exact hr.quit
  have hrun : (ucRunStuff (fun _ _ => 0) [⟨[], 0, 1⟩, ⟨[], 0, 1⟩]).2 =
      (runCore 0 ⟨[], 0, 1⟩ (RunState.start fun _ _ => 0).host).2 := by
    have h1 : ∀ x, ucRunStuffStep x (RunState.start fun _ _ => 0) =
        ({ RunState.start fun _ _ => 0 with point := .forHead 0 }, []) :=
      fun x => step_whileHead rfl hr.err hr.quit
    have h2 := fun x => step_turn (x := x) (s := { RunState.start fun _ _ => 0 with point := .forHead 0 })
      (show _ = RunPoint.forHead (0 : Core) from rfl) hr.online hr.quit
    unfold ucRunStuff
    simp only [Cmd.forEach_cons, Cmd.forEach_nil, h1, h2, List.nil_append, List.append_nil]
  have := hret _ (by rw [hrun]; exact hend) 0 0 1 rfl hq
  exact absurd this (by decide)

end Mooooooo
