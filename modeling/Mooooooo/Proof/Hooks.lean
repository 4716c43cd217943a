import Mathlib.Data.List.ReduceOption
import Mooooooo.Spec.Hooks

/-!
# `hook_code` over interleaved calls of all cores

* `hookCode_eq`: what one call does to the static variables, and what it calls.
* `flags_run`: the two flags of a core say what its own calls read.
* `wfe_stop_exact`: **a call stops the engine exactly if the core's call before read a
  WFE that no SEVL covers**, whatever the other cores do.
* `stop_progress_iff`: a stopped core is not stopped again at the same address, exactly if
  no WFE is there.
* `hang_own_iff`: a hang is reported for a core's own repetition exactly in the runs where
  cores do not meet at one address first.
-/

namespace Mooooooo

/-! ## One call -/

section Call

variable (core : Core) (e : CodeCall) (s : HookState)

theorem hookCodeStop_eq : hookCodeStop core s =
    ({ s with gShouldStop := Function.update s.gShouldStop core false },
      if s.gShouldStop core = true then [.emuStop core] else []) := by
  unfold hookCodeStop
  by_cases h : s.gShouldStop core = true
  · rw [if_pos h, if_pos h]
    rfl
  · -- the flag is false already
    have hsame : Function.update s.gShouldStop core false = s.gShouldStop := by
      rw [← Bool.eq_false_iff.2 h]
      exact Function.update_eq_self _ _
    rw [if_neg h, if_neg h, hsame]

theorem hookCodeInsn_eq (insn : Option (BitVec 32)) : hookCodeInsn core insn s =
    ({ s with
      gHasSevl := Function.update s.gHasSevl core
        (decide (insn = some sevl) || (decide (insn ≠ some wfe) && s.gHasSevl core))
      gShouldStop := Function.update s.gShouldStop core
        ((decide (insn = some wfe) && !s.gHasSevl core) || s.gShouldStop core) }, []) := by
  have hne : sevl ≠ wfe := by decide
  cases insn with
  | none => simp [hookCodeInsn, Cmd.skip]
  | some insn =>
    unfold hookCodeInsn
    by_cases hs : insn = sevl
    · subst hs
      simp [hne]
    · by_cases hw : insn = wfe
      · subst hw
        cases h : s.gHasSevl core <;> simp [hs, h]
      · simp [hs, hw]

theorem hookCodeHang_eq (address : BitVec 64) : hookCodeHang core address s =
    ({ s with ucQuit := s.ucQuit || decide (s.lastPc0 = address ∧ s.lastPc1 = address) },
      if s.lastPc0 = address ∧ s.lastPc1 = address ∧ s.ucQuit = false then [.hang core address] else []) := by
  unfold hookCodeHang
  have hiff : (s.lastPc0 = address ∧ s.lastPc0 = s.lastPc1 ∧ s.ucQuit = false) ↔
      s.lastPc0 = address ∧ s.lastPc1 = address ∧ s.ucQuit = false := by
    constructor
    · rintro ⟨h1, h2, h3⟩
      exact ⟨h1, h2 ▸ h1, h3⟩
    · rintro ⟨h1, h2, h3⟩
      exact ⟨h1, h1.trans h2.symm, h3⟩
  by_cases h : s.lastPc0 = address ∧ s.lastPc1 = address ∧ s.ucQuit = false
  · rw [if_pos (hiff.2 h), if_pos h]
    simp [h.1, h.2.1]
  · rw [if_neg (fun h' => h (hiff.1 h')), if_neg h]
    have hquit : (s.ucQuit || decide (s.lastPc0 = address ∧ s.lastPc1 = address)) = s.ucQuit := by
      cases hq : s.ucQuit with
      | true => rfl
      | false =>
        rw [Bool.false_or]
        exact decide_eq_false fun h' => h ⟨h'.1, h'.2, hq⟩
    rw [hquit]

/-- **What a call does**: the core's two flags, the history and `uc_quit`, and what it calls. -/
theorem hookCode_eq : hookCode e s =
    (⟨e.address, s.lastPc0,
      Function.update s.gHasSevl e.core
        (decide (e.insn = some sevl) || (decide (e.insn ≠ some wfe) && s.gHasSevl e.core)),
      Function.update s.gShouldStop e.core (decide (e.insn = some wfe) && !s.gHasSevl e.core),
      s.ucQuit || decide (s.lastPc0 = e.address ∧ s.lastPc1 = e.address)⟩,
    (if s.gShouldStop e.core = true then [.emuStop e.core] else []) ++
      if s.lastPc0 = e.address ∧ s.lastPc1 = e.address ∧ s.ucQuit = false then [.hang e.core e.address]
      else []) := by
  unfold hookCode hookCodeShift
  simp only [Cmd.forEach_cons, Cmd.forEach_nil, id, hookCodeStop_eq, hookCodeInsn_eq, hookCodeHang_eq,
    Function.update_self, Function.update_idem, Bool.or_false, List.nil_append, List.append_nil]

theorem hookCode_emuStop (c : Core) :
    .emuStop c ∈ (hookCode e s).2 ↔ e.core = c ∧ s.gShouldStop c = true := by
  rw [hookCode_eq]
  simp only [List.mem_append]
  constructor
  · rintro (h | h)
    · split at h
      · rename_i hs
        obtain rfl : c = e.core := by simpa using h
        exact ⟨rfl, hs⟩
      · simp at h
    · split at h <;> simp at h
  · rintro ⟨rfl, h⟩
    exact .inl (by simp [h])

end Call

theorem hookRun_concat (pre : List CodeCall) (e : CodeCall) :
    (hookRun (pre ++ [e])).1 = (hookCode e (hookRun pre).1).1 := by
  unfold hookRun
  rw [Cmd.forEach_concat]

/-! ## WFE and SEVL -/

/-- The words that core `c` read, oldest first. -/
def ownInsns (c : Core) (es : List CodeCall) : List (Option (BitVec 32)) :=
  (es.filter fun e => e.core = c).map CodeCall.insn

/-- A SEVL was read after the last WFE. -/
def Sevled (is : List (Option (BitVec 32))) : Prop := some sevl ∈ is.reverse.takeWhile fun x => x ≠ some wfe

/-- The last word read is a WFE, and no SEVL was read between the WFE before and it. -/
def WfeStops (is : List (Option (BitVec 32))) : Prop := ∃ init, is = init ++ [some wfe] ∧ ¬Sevled init

theorem ownInsns_concat (c : Core) (pre : List CodeCall) (e : CodeCall) :
    ownInsns c (pre ++ [e]) = if e.core = c then ownInsns c pre ++ [e.insn] else ownInsns c pre := by
  unfold ownInsns
  rw [List.filter_append]
  by_cases h : e.core = c <;> simp [h]

theorem sevled_concat (is : List (Option (BitVec 32))) (x : Option (BitVec 32)) :
    Sevled (is ++ [x]) ↔ x = some sevl ∨ x ≠ some wfe ∧ Sevled is := by
  have hne : (some sevl : Option (BitVec 32)) ≠ some wfe := by decide
  unfold Sevled
  rw [List.reverse_append, List.reverse_singleton, List.singleton_append]
  by_cases h : x = some wfe
  · subst h
    rw [List.takeWhile_cons_of_neg (by simp)]
    simp [Ne.symm hne]
  · rw [List.takeWhile_cons_of_pos (by simpa using h), List.mem_cons]
    simp [h, eq_comm]

theorem wfeStops_concat (is : List (Option (BitVec 32))) (x : Option (BitVec 32)) :
    WfeStops (is ++ [x]) ↔ x = some wfe ∧ ¬Sevled is := by
  constructor
  · rintro ⟨init, heq, hn⟩
    obtain ⟨rfl, hx⟩ := List.append_inj' heq rfl
    exact ⟨List.singleton_inj.1 hx, hn⟩
  · rintro ⟨rfl, hn⟩
    exact ⟨is, rfl, hn⟩

/-- **The core's flags say what its own calls read**, whatever the other cores did. -/
theorem flags_run (es : List CodeCall) (c : Core) :
    ((hookRun es).1.gHasSevl c = true ↔ Sevled (ownInsns c es)) ∧
      ((hookRun es).1.gShouldStop c = true ↔ WfeStops (ownInsns c es)) := by
  induction es using List.reverseRecOn with
  | nil =>
    refine ⟨by simp [hookRun, HookState.zero, ownInsns, Sevled], ?_⟩
    simp [hookRun, HookState.zero, ownInsns, WfeStops]
  | append_singleton es e ih =>
    obtain ⟨hsevl, hstop⟩ := ih
    rw [hookRun_concat, hookCode_eq, ownInsns_concat]
    dsimp only
    by_cases hc : e.core = c
    · subst hc
      rw [if_pos rfl, sevled_concat, wfeStops_concat, Function.update_self, Function.update_self, ← hsevl]
      simp
    · rw [if_neg hc, Function.update_of_ne (Ne.symm hc), Function.update_of_ne (Ne.symm hc)]
      exact ⟨hsevl, hstop⟩

/-- Failed reads do not matter for what an earlier WFE is covered by. -/
theorem sevled_reduceOption {is is' : List (Option (BitVec 32))} (h : is.reduceOption = is'.reduceOption) :
    Sevled is ↔ Sevled is' := by
  have hsome : ∀ is : List (Option (BitVec 32)), Sevled is ↔ Sevled (is.reduceOption.map some) := by
    intro is
    induction is using List.reverseRecOn with
    | nil => rfl
    | append_singleton is x ih =>
      rw [sevled_concat, List.reduceOption_append, List.reduceOption_singleton]
      cases x with
      | none => simpa using ih
      | some x =>
        rw [Option.toList_some, List.map_append, List.map_singleton, sevled_concat, ih]
  rw [hsome is, hsome is', h]

/-- **WFE and SEVL are tracked exactly, for each core.** A call stops an engine if and only
if it is a call of its core and the core's call before read a WFE that no SEVL covers. The
calls of other cores, and reads that failed before that call, never change this. -/
theorem wfe_stop_exact (pre : List CodeCall) (e : CodeCall) (c : Core) :
    (.emuStop c ∈ (hookCode e (hookRun pre).1).2 ↔ e.core = c ∧ WfeStops (ownInsns c pre)) ∧
      ∀ pre' init init' last, ownInsns c pre = init ++ [last] → ownInsns c pre' = init' ++ [last] →
        init.reduceOption = init'.reduceOption →
        (.emuStop c ∈ (hookCode e (hookRun pre).1).2 ↔ .emuStop c ∈ (hookCode e (hookRun pre').1).2) := by
  have hexact : ∀ pre, .emuStop c ∈ (hookCode e (hookRun pre).1).2 ↔ e.core = c ∧ WfeStops (ownInsns c pre) := by
    intro pre
    rw [hookCode_emuStop, (flags_run pre c).2]
  refine ⟨hexact pre, ?_⟩
  intro pre' init init' last hpre hpre' hsame
  rw [hexact, hexact, hpre, hpre', wfeStops_concat, wfeStops_concat, sevled_reduceOption hsame]

/-! ## Progress after a stop -/

/-- The call `e` after the calls `pre` requests a stop of its engine. -/
def Stops (pre : List CodeCall) (e : CodeCall) : Prop := .emuStop e.core ∈ (hookCode e (hookRun pre).1).2

theorem stops_iff (pre : List CodeCall) (e : CodeCall) : Stops pre e ↔ WfeStops (ownInsns e.core pre) := by
  unfold Stops
  rw [hookCode_emuStop, (flags_run pre e.core).2, and_iff_right rfl]

/-- A core that a call stops is not stopped again by its next call, which hooks the same
address with the same word. The calls `mid` of other cores may come in between. -/
def StopProgress (es : List CodeCall) : Prop :=
  ∀ pre e mid post, es = pre ++ e :: (mid ++ e :: post) → (∀ x ∈ mid, x.core ≠ e.core) →
    Stops pre e → ¬Stops (pre ++ e :: mid) e

theorem ownInsns_append (c : Core) (pre post : List CodeCall) :
    ownInsns c (pre ++ post) = ownInsns c pre ++ ownInsns c post := by
  unfold ownInsns
  rw [List.filter_append, List.map_append]

theorem ownInsns_others {c : Core} {mid : List CodeCall} (h : ∀ x ∈ mid, x.core ≠ c) : ownInsns c mid = [] := by
  unfold ownInsns
  rw [List.map_eq_nil_iff, List.filter_eq_nil_iff]
  intro x hx
  simpa using h x hx

/-- The WFE that stops a core has used up the SEVL before it. -/
theorem WfeStops.not_sevled {is : List (Option (BitVec 32))} (h : WfeStops is) : ¬Sevled is := by
  have hne : (some wfe : Option (BitVec 32)) ≠ some sevl := by decide
  obtain ⟨init, rfl, -⟩ := h
  rw [sevled_concat]
  rintro (h | ⟨h, -⟩)
  · exact hne h
  · exact h rfl

/-- After a stop, the re-hook stops the core again exactly if a WFE is there: it was decoded
by the call that requested the stop, before it could execute. -/
theorem restop_iff {pre mid : List CodeCall} {e : CodeCall} (hmid : ∀ x ∈ mid, x.core ≠ e.core)
    (hstop : Stops pre e) : Stops (pre ++ e :: mid) e ↔ e.insn = some wfe := by
  have hown : ownInsns e.core (pre ++ e :: mid) = ownInsns e.core pre ++ [e.insn] := by
    rw [List.append_cons, ownInsns_append, ownInsns_others hmid, List.append_nil, ownInsns_concat, if_pos rfl]
  rw [stops_iff] at hstop
  rw [stops_iff, hown, wfeStops_concat, and_iff_left hstop.not_sevled]

/-- **When a stopped core makes progress.** Exactly if no WFE is at an address at which an
earlier WFE of the core stops it. -/
theorem stop_progress_iff (es : List CodeCall) :
    StopProgress es ↔
      ∀ pre e mid post, es = pre ++ e :: (mid ++ e :: post) → (∀ x ∈ mid, x.core ≠ e.core) →
        WfeStops (ownInsns e.core pre) → e.insn ≠ some wfe := by
  constructor
  · intro h pre e mid post hes hmid hwfe hinsn
    have hstop := (stops_iff pre e).2 hwfe
    exact h pre e mid post hes hmid hstop ((restop_iff hmid hstop).2 hinsn)
  · intro h pre e mid post hes hmid hstop
    rw [restop_iff hmid hstop]
    exact h pre e mid post hes hmid ((stops_iff pre e).1 hstop)

/-- **A core stopped at a WFE stays there**: all further calls of the core request a stop, as
long as they are re-hooks of it. -/
theorem stopped_at_wfe {pre : List CodeCall} {e : CodeCall} (hinsn : e.insn = some wfe) (hstop : Stops pre e)
    (mid : List CodeCall) (hmid : ∀ x ∈ mid, x.core = e.core → x = e) : Stops (pre ++ mid) e := by
  induction mid using List.reverseRecOn with
  | nil => rwa [List.append_nil]
  | append_singleton mid x ih =>
    have hprev := ih fun y hy => hmid y (List.mem_append_left _ hy)
    rw [stops_iff] at hprev
    rw [stops_iff, ← List.append_assoc, ownInsns_concat]
    by_cases hx : x.core = e.core
    · obtain rfl := hmid x (List.mem_append_right _ (List.mem_singleton_self x)) hx
      rw [if_pos rfl, wfeStops_concat]
      exact ⟨hinsn, hprev.not_sevled⟩
    · rwa [if_neg hx]

/-- Two WFEs in a row: the core is stopped at the second one, and stopped there again. -/
theorem second_wfe_stops_again : ¬StopProgress
    [⟨0, 0x80060000, some wfe⟩, ⟨0, 0x80060004, some wfe⟩, ⟨0, 0x80060004, some wfe⟩] := by
  intro h
  have hstop : WfeStops (ownInsns 0 [⟨0, 0x80060000, some wfe⟩]) :=
    (wfeStops_concat [] _).2 ⟨rfl, by simp [Sevled]⟩
  refine h [⟨0, 0x80060000, some wfe⟩] ⟨0, 0x80060004, some wfe⟩ [] [] rfl (by simp) ((stops_iff _ _).2 hstop) ?_
  exact (restop_iff (by simp) ((stops_iff _ _).2 hstop)).2 rfl

/-! ## Hangs -/

/-- The addresses of the calls of core `c`, oldest first. -/
def ownAddresses (c : Core) (es : List CodeCall) : List (BitVec 64) :=
  (es.filter fun e => e.core = c).map CodeCall.address

/-- The addresses of all calls, after the two zeros that `last_pc` starts with. -/
def seen (es : List CodeCall) : List (BitVec 64) := 0 :: 0 :: es.map CodeCall.address

/-- The two calls before `e`, of whichever cores, were at its address. -/
def Repeats (pre : List CodeCall) (e : CodeCall) : Prop := [e.address, e.address] <:+ seen pre

/-- The core's own two calls before `e` were at its address. -/
def OwnRepeats (pre : List CodeCall) (e : CodeCall) : Prop := [e.address, e.address] <:+ ownAddresses e.core pre

theorem seen_concat (pre : List CodeCall) (e : CodeCall) : seen (pre ++ [e]) = seen pre ++ [e.address] := by
  simp [seen]

theorem lastPc_run (es : List CodeCall) : [(hookRun es).1.lastPc1, (hookRun es).1.lastPc0] <:+ seen es := by
  induction es using List.reverseRecOn with
  | nil => exact List.suffix_refl _
  | append_singleton es e ih =>
    rw [hookRun_concat, hookCode_eq, seen_concat]
    obtain ⟨before, heq⟩ := ih
    exact ⟨before ++ [(hookRun es).1.lastPc1], by simp [← heq]⟩

theorem repeats_iff (pre : List CodeCall) (e : CodeCall) :
    Repeats pre e ↔ (hookRun pre).1.lastPc0 = e.address ∧ (hookRun pre).1.lastPc1 = e.address := by
  have hlast := lastPc_run pre
  constructor
  · intro h
    -- two suffixes of one length
    have heq := (List.suffix_of_suffix_length_le h hlast le_rfl).eq_of_length rfl
    simp only [List.cons.injEq, and_true] at heq
    exact ⟨heq.2.symm, heq.1.symm⟩
  · rintro ⟨h0, h1⟩
    rw [h0, h1] at hlast
    exact hlast

/-- `uc_quit` is set once the run had three calls in a row at one address. -/
theorem ucQuit_run (es : List CodeCall) :
    (hookRun es).1.ucQuit = true ↔ ∃ pre e post, es = pre ++ e :: post ∧ Repeats pre e := by
  induction es using List.reverseRecOn with
  | nil => simp [hookRun, HookState.zero]
  | append_singleton es e ih =>
    rw [hookRun_concat, hookCode_eq]
    dsimp only
    rw [Bool.or_eq_true, decide_eq_true_iff, ← repeats_iff, ih]
    constructor
    · rintro (⟨pre, e', post, rfl, hrep⟩ | hrep)
      · exact ⟨pre, e', post ++ [e], by simp, hrep⟩
      · exact ⟨es, e, [], rfl, hrep⟩
    · rintro ⟨pre, e', post, heq, hrep⟩
      rcases List.eq_nil_or_concat post with rfl | ⟨post, last, rfl⟩
      · obtain ⟨rfl, he⟩ := List.append_inj' heq rfl
        obtain rfl := List.singleton_inj.1 he
        exact .inr hrep
      · rw [List.concat_eq_append, ← List.cons_append, ← List.append_assoc] at heq
        exact .inl ⟨pre, e', post, (List.append_inj' heq rfl).1, hrep⟩

/-- A call of the run that sets `uc_quit` does so for its own core's repetition. -/
def NoFalseAlarm (es : List CodeCall) : Prop :=
  ∀ pre e post, es = pre ++ e :: post → (hookRun pre).1.ucQuit = false →
    (hookRun (pre ++ [e])).1.ucQuit = true → OwnRepeats pre e

/-- **When hangs are not false alarms.** Exactly if the first call of the run that comes
after two calls at its address, of any cores, comes after two such calls of its own core. -/
theorem hang_own_iff (es : List CodeCall) :
    NoFalseAlarm es ↔
      ∀ pre e post, es = pre ++ e :: post → Repeats pre e →
        (∀ p e' q, pre = p ++ e' :: q → ¬Repeats p e') → OwnRepeats pre e := by
  have hbefore : ∀ pre, (hookRun pre).1.ucQuit = false ↔ ∀ p e' q, pre = p ++ e' :: q → ¬Repeats p e' := by
    intro pre
    rw [← Bool.not_eq_true, ucQuit_run]
    push Not
    rfl
  have hset : ∀ pre e, (hookRun pre).1.ucQuit = false →
      ((hookRun (pre ++ [e])).1.ucQuit = true ↔ Repeats pre e) := by
    intro pre e hq
    rw [hookRun_concat, hookCode_eq, repeats_iff]
    simp [hq]
  constructor
  · intro h pre e post hes hrep hfirst
    have hq := (hbefore pre).2 hfirst
    exact h pre e post hes hq ((hset pre e hq).2 hrep)
  · intro h pre e post hes hq hafter
    exact h pre e post hes ((hset pre e hq).1 hafter) ((hbefore pre).1 hq)

/-- Cores 0, 1 and 0 once each at one address: a hang of core 0, which was there once before. -/
theorem three_meet_no_hang : ¬NoFalseAlarm
    [⟨0, 0x80060000, none⟩, ⟨1, 0x80060000, none⟩, ⟨0, 0x80060000, none⟩] := by
  intro h
  have hown := h [⟨0, 0x80060000, none⟩, ⟨1, 0x80060000, none⟩] ⟨0, 0x80060000, none⟩ [] rfl
    (by decide) (by decide)
  have hlen := hown.length_le
  simp [ownAddresses] at hlen

end Mooooooo
