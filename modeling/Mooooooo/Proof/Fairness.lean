import Mooooooo.Proof.Schedule

/-!
# Passes of the `for` loop

`PassRuns` is a complete pass as an inductive relation: from a value of the counter and
the cores online, on the outcomes of the slices, the cores that get a turn. The loop
breaks at the first core that is offline, and after a slice that does not return 0.

* `pass_runs`: every complete pass of the run loop is one of these.
* `PassRuns.mem_iff`: which cores it runs.
* `pass_fair_iff`: **a pass gives every core that was online its turn** if and only if
  the cores below it are online by their turns and their slices return 0.
-/

namespace Mooooooo

/-! ## Complete passes -/

/-- The cores online after a slice. -/
def bring (x : Slice) (online : Core → Bool) (c : Core) : Bool := online c || decide (.smcCpuOn c ∈ x.acts)

/-- A complete pass from a value of the counter, and the cores it runs. -/
inductive PassRuns : ℕ → (Core → Bool) → List Slice → List Core → Prop
  | stop {i : ℕ} {online : Core → Bool} (x : Slice) (hoff : ∀ hi : i < 4, online ⟨i, hi⟩ = false) :
      PassRuns i online [x] []
  | last {core : Core} {online : Core → Bool} {x : Slice} (hon : online core = true) (hret : x.ret ≠ 0) :
      PassRuns core online [x] [core]
  | turn {core : Core} {online : Core → Bool} {x : Slice} {xs : List Slice} {ran : List Core}
      (hon : online core = true) (hret : x.ret = 0) (hrest : PassRuns (core + 1) (bring x online) xs ran) :
      PassRuns core online (x :: xs) (core :: ran)

namespace PassRuns

variable {i : ℕ} {online : Core → Bool} {xs : List Slice} {ran : List Core}

theorem le_of_mem (h : PassRuns i online xs ran) {c : Core} (hc : c ∈ ran) : i ≤ c := by
  induction h with
  | stop x hoff => simp at hc
  | last hon hret => exact le_of_eq (congrArg Fin.val (List.mem_singleton.1 hc).symm)
  | turn hon hret hrest ih =>
    rcases List.mem_cons.1 hc with rfl | hc
    · exact le_rfl
    · have := ih hc
      omega

/-- Cores run in increasing order. -/
theorem sorted (h : PassRuns i online xs ran) : ran.Pairwise (· < ·) := by
  induction h with
  | stop x hoff => exact List.Pairwise.nil
  | last hon hret => simp
  | turn hon hret hrest ih =>
    refine List.pairwise_cons.2 ⟨?_, ih⟩
    intro c hc
    have := hrest.le_of_mem hc
    exact Fin.lt_def.2 (by omega)

/-- Core `j` is online by its turn: at the start, or brought online by an earlier slice
of the pass. -/
def OnlineBy (i : ℕ) (online : Core → Bool) (xs : List Slice) (j : Core) : Prop :=
  online j = true ∨ ∃ y ∈ xs.take (j - i), .smcCpuOn j ∈ y.acts

theorem onlineBy_self {core : Core} {online : Core → Bool} {xs : List Slice} :
    OnlineBy core online xs core ↔ online core = true := by
  simp [OnlineBy]

theorem take_cons {core c : Core} (x : Slice) (xs : List Slice) (h : core < c) :
    (x :: xs).take (c - core) = x :: xs.take (c - (core + 1)) := by
  have hlt : (core : ℕ) < c := h
  have : (c : ℕ) - core = (c - (core + 1)) + 1 := by omega
  rw [this, List.take_succ_cons]

theorem onlineBy_cons {core j : Core} {online : Core → Bool} {x : Slice} {xs : List Slice} (h : core < j) :
    OnlineBy core online (x :: xs) j ↔ OnlineBy (core + 1) (bring x online) xs j := by
  unfold OnlineBy
  rw [take_cons x xs h]
  simp only [bring, List.mem_cons, Bool.or_eq_true, decide_eq_true_eq, exists_eq_or_imp, or_assoc]

/-- **The cores a pass runs**: those with every core up to them online by its turn and
every earlier slice returning 0. -/
theorem mem_iff (h : PassRuns i online xs ran) (c : Core) : c ∈ ran ↔
    i ≤ c ∧ (∀ y ∈ xs.take (c - i), y.ret = 0) ∧ ∀ j : Core, i ≤ j → j ≤ c → OnlineBy i online xs j := by
  induction h with
  | @stop i online x hoff =>
    simp only [List.not_mem_nil, false_iff, not_and]
    intro hic _ hall
    have hi : i < 4 := by omega
    rcases hall ⟨i, hi⟩ le_rfl hic with hon | ⟨y, hy, -⟩
    · rw [hoff hi] at hon
      simp at hon
    · simp at hy
  | @last core online x hon hret =>
    constructor
    · intro hc
      rw [List.mem_singleton] at hc
      subst hc
      refine ⟨le_rfl, by simp, ?_⟩
      intro j h1 h2
      have hj : j = c := le_antisymm h2 h1
      subst hj
      exact onlineBy_self.2 hon
    · rintro ⟨h1, h2, -⟩
      rw [List.mem_singleton]
      by_contra hne
      have hlt : core < c := lt_of_le_of_ne h1 (Ne.symm hne)
      rw [take_cons x [] hlt] at h2
      exact hret (h2 x List.mem_cons_self)
  | @turn core online x xs ran hon hret hrest ih =>
    -- below the counter, at it, and beyond it, where the rest of the pass decides
    rcases lt_trichotomy c core with hlt | rfl | hgt
    · refine iff_of_false ?_ fun hc => absurd hc.1 (by have : (c : ℕ) < core := hlt; omega)
      intro hc
      have := (turn hon hret hrest).le_of_mem hc
      have : (c : ℕ) < core := hlt
      omega
    · refine iff_of_true List.mem_cons_self ⟨le_rfl, by simp, ?_⟩
      intro j h1 h2
      have hj : j = c := le_antisymm h2 h1
      subst hj
      exact onlineBy_self.2 hon
    · have hne : c ≠ core := ne_of_gt hgt
      have hlt : (core : ℕ) < c := hgt
      rw [List.mem_cons, or_iff_right hne, ih, take_cons x xs hgt, List.forall_mem_cons]
      constructor
      · rintro ⟨-, h2, h3⟩
        refine ⟨le_of_lt hlt, ⟨hret, h2⟩, ?_⟩
        intro j hj1 hj2
        rcases eq_or_lt_of_le (show core ≤ j from hj1) with rfl | hj
        · exact onlineBy_self.2 hon
        · exact (onlineBy_cons hj).2 (h3 j hj hj2)
      · rintro ⟨-, ⟨-, h2⟩, h3⟩
        exact ⟨hlt, h2, fun j hj1 hj2 => (onlineBy_cons hj1).1 (h3 j (Nat.le_of_succ_le hj1) hj2)⟩

end PassRuns

/-! ## The passes of the run loop -/

/-- The moments of the steps `body` after the run on `pre`. -/
def passMoments (mem : HostBlock → ℕ → BitVec 8) (pre body : List Slice) : List Moment :=
  (Cmd.forEach ucRunStuffStep body (ucRunStuff mem pre).1).2

/-- After the run on `pre`, the steps `body` are a complete pass of the `for` loop, with
`uc_quit` false throughout (a failed slice sets it). -/
structure Pass (mem : HostBlock → ℕ → BitVec 8) (pre body : List Slice) : Prop where
  start : (ucRunStuff mem pre).1.point = .forHead 0
  within : ∀ b, b <+: body → b ≠ body → ∃ i, (ucRunStuff mem (pre ++ b)).1.point = .forHead i
  finish : (ucRunStuff mem (pre ++ body)).1.point = .passEnd
  quitBefore : (ucRunStuff mem pre).1.host.ucQuit = false
  quit : ∀ mo ∈ passMoments mem pre body, mo.host.ucQuit = false

/-- **Fairness.** Cores get a turn in increasing order, each once: an injection, then a
slice. Every core that was online at the start gets one, and only cores that are online. -/
def PassFair (mem : HostBlock → ℕ → BitVec 8) (pre body : List Slice) : Prop :=
  ∃ ran : List Core, ran.Pairwise (· < ·) ∧ schedCalls (passMoments mem pre body) = ran.flatMap turnCalls ∧
    (∀ c, (ucRunStuff mem pre).1.host.coresOnline c = true → c ∈ ran) ∧
    ∀ mo ∈ passMoments mem pre body, mo.Starts → mo.host.coresOnline mo.call.core = true

/-- Below every core that is online at the start, the slices of the pass return 0 and
the cores are online by their turns. -/
def PassCond (mem : HostBlock → ℕ → BitVec 8) (pre body : List Slice) : Prop :=
  ∀ c, (ucRunStuff mem pre).1.host.coresOnline c = true → (∀ y ∈ body.take c, y.ret = 0) ∧
    ∀ j < c, (ucRunStuff mem pre).1.host.coresOnline j = true ∨ ∃ y ∈ body.take j, .smcCpuOn j ∈ y.acts

/-- The steps of a pass leave the `for` with the last of them. -/
def InFor (body : List Slice) (s : RunState) : Prop :=
  ∀ b, b <+: body → b ≠ body → ∃ i, (Cmd.forEach ucRunStuffStep b s).1.point = .forHead i

theorem InFor.tail {x : Slice} {xs : List Slice} {s : RunState} (h : InFor (x :: xs) s) :
    InFor xs (ucRunStuffStep x s).1 := fun b hb hne =>
  h (x :: b) (List.cons_prefix_cons.2 ⟨rfl, hb⟩) fun heq => hne (List.cons.inj heq).2

/-- A pass is over once the loop is behind the `for`. -/
theorem InFor.nil_of_passEnd {xs : List Slice} {s : RunState} (h : InFor xs s) (hp : s.point = .passEnd) :
    xs = [] := by
  by_contra hne
  obtain ⟨i, hi⟩ := h [] (List.nil_prefix) (Ne.symm hne)
  rw [Cmd.forEach_nil] at hi
  dsimp only at hi
  rw [hp] at hi
  simp at hi

/-- Injections and slices are started on cores that are online. -/
theorem runCore_starts {core : Core} {x : Slice} {h : Host} (hi : h.Idle) (hon : h.coresOnline core = true)
    {mo : Moment} (hmo : mo ∈ (runCore core x h).2) (hs : mo.Starts) :
    mo.host.coresOnline mo.call.core = true := by
  rcases runCore_parts hi hmo with rfl | hpre | hg | hpost
  · exact hon
  · simp only [beforeGuest, List.mem_cons, List.not_mem_nil, or_false] at hpre
    rcases hpre with rfl | rfl | rfl | rfl | rfl <;> exact hon
  · exact absurd (sched_of_emu (guest_moment hg).2.2) hs
  · simp only [afterGuest, List.mem_cons, List.not_mem_nil, or_false] at hpost
    rcases hpost with rfl | rfl | rfl | rfl | rfl <;> exact absurd rfl hs

/-- **The steps of a pass are a pass**, from any value of the counter. -/
theorem pass_runs_from (body : List Slice) {i : ℕ} {s : RunState} (hp : s.point = .forHead i)
    (hi : s.host.Idle) (hq : s.host.ucQuit = false) (hin : InFor body s)
    (hend : (Cmd.forEach ucRunStuffStep body s).1.point = .passEnd)
    (hcalm : ∀ mo ∈ (Cmd.forEach ucRunStuffStep body s).2, mo.host.ucQuit = false) :
    ∃ ran, PassRuns i s.host.coresOnline body ran ∧
      schedCalls (Cmd.forEach ucRunStuffStep body s).2 = ran.flatMap turnCalls ∧
      ∀ mo ∈ (Cmd.forEach ucRunStuffStep body s).2, mo.Starts → mo.host.coresOnline mo.call.core = true := by
  induction body generalizing i s with
  | nil =>
    rw [Cmd.forEach_nil] at hend
    dsimp only at hend
    rw [hp] at hend
    simp at hend
  | cons x xs ih =>
    have htail := hin.tail
    rw [Cmd.forEach_cons] at hend hcalm ⊢
    dsimp only at hend hcalm ⊢
    by_cases hturn : ∃ hlt : i < 4, s.host.coresOnline ⟨i, hlt⟩ = true
    · obtain ⟨hlt, hon⟩ := hturn
      set core : Core := ⟨i, hlt⟩
      have hstep := step_turn (x := x) (show s.point = .forHead core from hp) hon hq
      rw [hstep] at hend hcalm htail ⊢
      have hsched := runCore_sched core x hi
      have hstarts : ∀ mo ∈ (runCore core x s.host).2, mo.Starts → mo.host.coresOnline mo.call.core = true :=
        fun _ => runCore_starts hi hon
      have hidle := runCore_idle core x hi
      have hquit := hcalm _ (List.mem_append_left _ (runCore_end core x hi))
      have honline : (runCore core x s.host).1.coresOnline = bring x s.host.coresOnline :=
        funext fun c => runCore_online core x hi c
      dsimp only at hend hcalm htail hquit ⊢
      by_cases hret : x.ret = 0
      · -- on to the next core
        rw [if_neg (by simp [hret])] at hend hcalm htail ⊢
        obtain ⟨ran, hran, hcalls, hons⟩ := ih rfl hidle hquit htail hend fun mo hmo =>
          hcalm mo (List.mem_append_right _ hmo)
        dsimp only at hran
        rw [honline] at hran
        refine ⟨core :: ran, PassRuns.turn hon hret hran, ?_, ?_⟩
        · rw [schedCalls_append, hsched, hcalls]
          rfl
        · intro mo hmo hs
          rcases List.mem_append.1 hmo with hmo | hmo
          · exact hstarts mo hmo hs
          · exact hons mo hmo hs
      · -- the slice ends the pass
        rw [if_pos hret] at htail
        have hxs : xs = [] := htail.nil_of_passEnd rfl
        subst hxs
        refine ⟨[core], PassRuns.last hon hret, ?_, ?_⟩
        · rw [Cmd.forEach_nil, List.append_nil, hsched]
          rfl
        · intro mo hmo hs
          rw [Cmd.forEach_nil, List.append_nil] at hmo
          exact hstarts mo hmo hs
    · -- the `for` is left: its counter is 4, or the core is offline
      have hoff : ∀ hlt : i < 4, s.host.coresOnline ⟨i, hlt⟩ = false := fun hlt => by
        simpa using fun h => hturn ⟨hlt, h⟩
      have hstep := step_break (x := x) hp hoff
      rw [hstep] at htail ⊢
      have hxs : xs = [] := htail.nil_of_passEnd rfl
      subst hxs
      exact ⟨[], PassRuns.stop x hoff, rfl, by simp⟩

/-- **Every complete pass of the run loop is a pass** from 0. -/
theorem pass_runs {mem : HostBlock → ℕ → BitVec 8} {pre body : List Slice} (h : Pass mem pre body) :
    ∃ ran, PassRuns 0 (ucRunStuff mem pre).1.host.coresOnline body ran ∧
      schedCalls (passMoments mem pre body) = ran.flatMap turnCalls ∧
      ∀ mo ∈ passMoments mem pre body, mo.Starts → mo.host.coresOnline mo.call.core = true := by
  refine pass_runs_from body h.start (idle_run mem pre) h.quitBefore ?_ ?_ h.quit
  · intro b hb hne
    obtain ⟨i, hi⟩ := h.within b hb hne
    rw [ucRunStuff_append] at hi
    exact ⟨i, hi⟩
  · have hend := h.finish
    rw [ucRunStuff_append] at hend
    exact hend

/-- The calls of a pass tell the cores that had a turn. -/
theorem turnCalls_injective {ran ran' : List Core} (h : ran.flatMap turnCalls = ran'.flatMap turnCalls) :
    ran = ran' := by
  have hslices : ∀ l : List Core, (l.flatMap turnCalls).filterMap (fun
      | .slice c => some c
      | .inject _ => none) = l := by
    intro l
    induction l with
    | nil => rfl
    | cons c l ih => rw [List.flatMap_cons, List.filterMap_append, ih]; rfl
  rw [← hslices ran, h, hslices]

/-- A pass runs every core that was online at its start exactly under the condition. -/
theorem ran_all_iff {mem : HostBlock → ℕ → BitVec 8} {pre body : List Slice} {ran : List Core}
    (h : PassRuns 0 (ucRunStuff mem pre).1.host.coresOnline body ran) :
    (∀ c, (ucRunStuff mem pre).1.host.coresOnline c = true → c ∈ ran) ↔ PassCond mem pre body := by
  refine forall_congr' fun c => imp_congr_right ?_
  intro hon
  rw [h.mem_iff]
  simp only [Nat.zero_le, true_and, Nat.sub_zero, true_implies]
  refine and_congr_right fun _ => ⟨fun hall j hj => hall j (le_of_lt hj), ?_⟩
  intro hall j hj
  rcases eq_or_lt_of_le hj with rfl | hlt
  · exact .inl hon
  · exact hall j hlt

theorem passCond_of_fair {mem : HostBlock → ℕ → BitVec 8} {pre body : List Slice} (h : Pass mem pre body)
    (hf : PassFair mem pre body) : PassCond mem pre body := by
  obtain ⟨ran, hran, hcalls, -⟩ := pass_runs h
  obtain ⟨ran', -, hcalls', hall, -⟩ := hf
  rw [hcalls] at hcalls'
  rw [← ran_all_iff hran, turnCalls_injective hcalls']
  exact hall

/-- **Round-robin fairness.** A complete pass gives every core that was online at its
start its turn if and only if, below each of them, the slices return 0 and the cores are
online by their turns. -/
theorem pass_fair_iff (mem : HostBlock → ℕ → BitVec 8) (pre body : List Slice) (h : Pass mem pre body) :
    PassFair mem pre body ↔ PassCond mem pre body := by
  refine ⟨passCond_of_fair h, ?_⟩
  intro hcond
  obtain ⟨ran, hran, hcalls, hons⟩ := pass_runs h
  exact ⟨ran, hran.sorted, hcalls, (ran_all_iff hran).2 hcond, hons⟩

/-! ## Two passes -/

/-- With core 1 offline, a pass is the turn of core 0 and a break. -/
theorem short_pass {mem : HostBlock → ℕ → BitVec 8} {pre : List Slice} (hr : Running (ucRunStuff mem pre).1)
    (hp : (ucRunStuff mem pre).1.point = .forHead 0)
    (hoff : (ucRunStuff mem pre).1.host.coresOnline 1 = false) :
    Pass mem pre [⟨[], 0, 0⟩, ⟨[], 0, 0⟩] := by
  set s := (ucRunStuff mem pre).1 with hs
  have hi : s.host.Idle := idle_run mem pre
  have hrun : ∀ b, (ucRunStuff mem (pre ++ b)).1 = (Cmd.forEach ucRunStuffStep b s).1 := fun b => by
    rw [ucRunStuff_append]
  have hq1 : (runCore 0 ⟨[], 0, 0⟩ s.host).1.ucQuit = false := by
    rw [runCore_quit_nil 0 0 hi]
    exact hr.quit
  have hoff1 : (runCore 0 ⟨[], 0, 0⟩ s.host).1.coresOnline 1 = false := by
    rw [runCore_online 0 _ hi, hoff]
    rfl
  have h1 : ucRunStuffStep ⟨[], 0, 0⟩ s =
      (⟨.forHead 1, 0, (runCore 0 ⟨[], 0, 0⟩ s.host).1⟩, (runCore 0 ⟨[], 0, 0⟩ s.host).2) :=
    step_turn (show _ = RunPoint.forHead (0 : Core) from hp) hr.online hr.quit
  have h2 : ucRunStuffStep ⟨[], 0, 0⟩ ⟨.forHead 1, 0, (runCore 0 ⟨[], 0, 0⟩ s.host).1⟩ =
      (⟨.passEnd, 0, (runCore 0 ⟨[], 0, 0⟩ s.host).1⟩, []) :=
    step_break rfl fun _ => hoff1
  refine ⟨hp, ?_, ?_, hr.quit, ?_⟩
  · intro b hb hne
    rw [hrun]
    rcases List.prefix_cons_iff.1 hb with rfl | ⟨b', rfl, hb'⟩
    · exact ⟨0, hp⟩
    · rcases List.prefix_cons_iff.1 hb' with rfl | ⟨b'', rfl, hb''⟩
      · exact ⟨1, by rw [Cmd.forEach_cons, h1, Cmd.forEach_nil]⟩
      · rw [List.prefix_nil.1 hb''] at hne
        exact absurd rfl hne
  · rw [hrun, Cmd.forEach_cons, h1, Cmd.forEach_cons]
    dsimp only
    rw [h2, Cmd.forEach_nil]
  · intro mo hmo
    unfold passMoments at hmo
    rw [← hs, Cmd.forEach_cons, h1, Cmd.forEach_cons] at hmo
    dsimp only at hmo
    rw [h2, Cmd.forEach_nil, List.append_nil, List.append_nil] at hmo
    by_contra hne
    rw [runCore_stops hi hr.quit hmo (.inl (by simpa using hne))] at hq1
    simp at hq1

/-- A first pass in which core 0 brings two cores online, and they have their turns. -/
def threeCores (c c' : Core) : List Slice := [⟨[], 0, 0⟩, ⟨[.smcCpuOn c, .smcCpuOn c'], 0, 0⟩, ⟨[], 0, 0⟩, ⟨[], 0, 0⟩,
  ⟨[], 0, 0⟩, ⟨[], 0, 0⟩, ⟨[], 0, 0⟩]

/-- The next pass: core 0 stores a byte, core 1 sends an SGI. -/
def nextPass : List Slice := [⟨[.store 0x80000000 1], 0, 0⟩, ⟨[.gic (.gicdWrite gicdSgir 0x2000001 4)], 0, 0⟩,
  ⟨[], 0, 0⟩, ⟨[], 0, 0⟩]

/-- With three cores online, the pass gives each its turn. -/
theorem three_cores_fair : PassFair (fun _ _ => 0) (threeCores 1 2) nextPass := by
  have hpoint : ∀ n < 4, (ucRunStuff (fun _ _ => 0) (threeCores 1 2 ++ nextPass.take n)).1.point = .forHead n := by
    decide +kernel
  have hwithin : ∀ b, b <+: nextPass → b ≠ nextPass →
      ∃ i, (ucRunStuff (fun _ _ => 0) (threeCores 1 2 ++ b)).1.point = .forHead i := by
    intro b hb hne
    have hlen : b.length < 4 := lt_of_le_of_ne hb.length_le fun h => hne (hb.eq_of_length h)
    rw [List.prefix_iff_eq_take.1 hb]
    exact ⟨b.length, hpoint b.length hlen⟩
  have hcond : PassCond (fun _ _ => 0) (threeCores 1 2) nextPass := by
    unfold PassCond
    decide +kernel
  have hpass : Pass (fun _ _ => 0) (threeCores 1 2) nextPass :=
    ⟨hpoint 0 (by omega), hwithin, by decide +kernel, by decide +kernel, by decide +kernel⟩
  exact (pass_fair_iff _ (threeCores 1 2) nextPass hpass).2 hcond

/-- Core 0 brings core 2 online, not core 1: the next pass does not run core 2. -/
theorem core2_starves : ¬∀ mem pre body, Pass mem pre body → PassFair mem pre body := by
  intro h
  have hr := start_running fun _ _ => 0
  have hi := start_idle fun _ _ => 0
  set s := RunState.start fun _ _ => 0 with hs
  set host := (runCore 0 ⟨[.smcCpuOn 2], 0, 0⟩ s.host).1 with hhost
  have honline : ∀ c, host.coresOnline c = (decide (c = 0) || decide (c = 2)) := by
    intro c
    rw [hhost, runCore_online 0 _ hi, hs]
    fin_cases c <;> rfl
  have hquit : host.ucQuit = false := by
    rw [hhost, runCore_quit 0 _ hi]
    exact hr.quit
  -- to the end of the first pass, and on to the second
  have h1 : ucRunStuffStep ⟨[], 0, 0⟩ s = ({ s with point := .forHead 0 }, []) :=
    step_whileHead rfl hr.err hr.quit
  have h2 : ucRunStuffStep ⟨[.smcCpuOn 2], 0, 0⟩ { s with point := .forHead 0 } =
      (⟨.forHead 1, 0, host⟩, (runCore 0 ⟨[.smcCpuOn 2], 0, 0⟩ s.host).2) :=
    step_turn (show _ = RunPoint.forHead (0 : Core) from rfl) hr.online hr.quit
  have h3 : ucRunStuffStep ⟨[], 0, 0⟩ ⟨.forHead 1, 0, host⟩ = (⟨.passEnd, 0, host⟩, []) :=
    step_break rfl fun _ => honline 1
  have h4 : ucRunStuffStep ⟨[], 0, 0⟩ ⟨.passEnd, 0, host⟩ = (⟨.whileHead, 0, host⟩, []) :=
    step_passEnd rfl hquit
  have h5 : ucRunStuffStep ⟨[], 0, 0⟩ ⟨.whileHead, 0, host⟩ = (⟨.forHead 0, 0, host⟩, []) :=
    step_whileHead rfl rfl hquit
  have hrun : (ucRunStuff (fun _ _ => 0) [⟨[], 0, 0⟩, ⟨[.smcCpuOn 2], 0, 0⟩, ⟨[], 0, 0⟩, ⟨[], 0, 0⟩,
      ⟨[], 0, 0⟩]).1 = ⟨.forHead 0, 0, host⟩ := by
    unfold ucRunStuff
    simp only [← hs, Cmd.forEach_cons, Cmd.forEach_nil, h1, h2, h3, h4, h5]
  have hpass := short_pass (by rw [hrun]; exact ⟨by simp, rfl, hquit, honline 0⟩) (by rw [hrun])
    (by rw [hrun]; exact honline 1)
  have hcond := passCond_of_fair hpass (h _ _ _ hpass)
  unfold PassCond at hcond
  rw [hrun] at hcond
  rcases (hcond 2 (honline 2)).2 1 (by decide) with hon | ⟨y, hy, hact⟩
  · have hoff : host.coresOnline 1 = false := honline 1
    rw [hoff] at hon
    simp at hon
  · have hy' : y = ⟨[], 0, 0⟩ := by simpa using hy
    rw [hy'] at hact
    simp at hact

end Mooooooo
