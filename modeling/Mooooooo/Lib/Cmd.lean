import Mathlib.Tactic

/-!
# Commands that leave a record

A command acts on a state and leaves a list of records, oldest first: the calls it
made, the values it returned. `Cmd.andThen` is sequencing, `Cmd.forEach` the loop
over a list; the run of a machine over a list of inputs is a `forEach` too.
`Cmd.forEach_inv`, `Cmd.forEach_foldl` and `Cmd.forEach_potential` are its rules for
invariants, for what a run writes and for amortised costs.

* `Monitor`: an automaton reading the records, with a state of its own and a check
  on each record. `Triple m R c R'` is the Hoare triple of a command against a
  monitor: from states related by `R`, the monitor accepts every record of `c` and
  the states are related by `R'` afterwards. `Triple.forEach` is the loop rule.
* `forEach_project`: **refinement of runs**. If every step's records project to
  inputs of a second machine, and running those inputs there matches the step, then
  whole runs match.
-/

namespace Mooooooo

universe u v w

/-- A command on states `σ` leaving records `ω`. -/
abbrev Cmd (σ : Type u) (ω : Type v) := σ → σ × List ω

namespace Cmd

variable {σ : Type*} {ω : Type*} {α : Type*}

/-- Do nothing. -/
def skip : Cmd σ ω := fun s => (s, [])

/-- Change the state and leave one record, made from the new state. -/
def emit (f : σ → σ) (r : σ → ω) : Cmd σ ω := fun s => (f s, [r (f s)])

/-- First `c`, then `d`. -/
def andThen (c d : Cmd σ ω) : Cmd σ ω := fun s => ((d (c s).1).1, (c s).2 ++ (d (c s).1).2)

/-- `body` for every element of a list, in order. -/
def forEach (body : α → Cmd σ ω) : List α → Cmd σ ω
  | [] => skip
  | a :: as => andThen (body a) (forEach body as)

@[simp] theorem skip_apply (s : σ) : (skip : Cmd σ ω) s = (s, []) := rfl

@[simp] theorem emit_apply (f : σ → σ) (r : σ → ω) (s : σ) : emit f r s = (f s, [r (f s)]) := rfl

@[simp] theorem andThen_apply (c d : Cmd σ ω) (s : σ) :
    andThen c d s = ((d (c s).1).1, (c s).2 ++ (d (c s).1).2) := rfl

@[simp] theorem forEach_nil (body : α → Cmd σ ω) (s : σ) : forEach body [] s = (s, []) := rfl

theorem forEach_cons (body : α → Cmd σ ω) (a : α) (as : List α) (s : σ) :
    forEach body (a :: as) s =
      ((forEach body as (body a s).1).1, (body a s).2 ++ (forEach body as (body a s).1).2) := rfl

theorem forEach_append (body : α → Cmd σ ω) (as bs : List α) (s : σ) :
    forEach body (as ++ bs) s =
      ((forEach body bs (forEach body as s).1).1,
        (forEach body as s).2 ++ (forEach body bs (forEach body as s).1).2) := by
  induction as generalizing s with
  | nil => simp
  | cons a as ih => simp only [List.cons_append, forEach_cons, ih, List.append_assoc]

/-- The run up to and including one more input. -/
theorem forEach_concat (body : α → Cmd σ ω) (as : List α) (a : α) (s : σ) :
    forEach body (as ++ [a]) s =
      ((body a (forEach body as s).1).1, (forEach body as s).2 ++ (body a (forEach body as s).1).2) := by
  rw [forEach_append, forEach_cons]; simp

theorem forEach_map {β : Type*} (body : β → Cmd σ ω) (f : α → β) (as : List α) :
    forEach body (as.map f) = forEach (fun a => body (f a)) as := by
  induction as with
  | nil => rfl
  | cons a as ih => funext s; rw [List.map_cons, forEach_cons, ih, forEach_cons]

/-- A loop with `continue` is the loop over what is left. -/
theorem forEach_skip (p : α → Prop) [DecidablePred p] (body : α → Cmd σ ω) (as : List α) :
    forEach (fun a => if p a then skip else body a) as = forEach body (as.filter (¬p ·)) := by
  induction as with
  | nil => rfl
  | cons a as ih =>
    funext s
    by_cases h : p a
    · rw [forEach_cons, ih, List.filter_cons_of_neg (by simpa using h)]; simp [h]
    · rw [forEach_cons, ih, List.filter_cons_of_pos (by simpa using h), forEach_cons]; simp [h]

/-- A relation between the states before and after that every round extends. -/
theorem forEach_rel (R : σ → σ → Prop) (hrefl : ∀ s, R s s) {body : α → Cmd σ ω}
    (hstep : ∀ a s t, R s t → R s (body a t).1) (as : List α) (s : σ) : R s (forEach body as s).1 := by
  induction as using List.reverseRecOn with
  | nil => exact hrefl s
  | append_singleton as a ih => rw [forEach_concat]; exact hstep a s _ ih

/-- **What a run writes.** If each step changes a part of the state by the write it makes,
if any, a run changes it by its writes in order. -/
theorem forEach_foldl {β γ : Type*} (body : α → Cmd σ ω) (part : σ → β) (write : α → Option γ)
    (f : β → γ → β) (hstep : ∀ a s, part (body a s).1 = ([a].filterMap write).foldl f (part s))
    (as : List α) (s : σ) : part (forEach body as s).1 = (as.filterMap write).foldl f (part s) := by
  induction as generalizing s with
  | nil => rfl
  | cons a as ih =>
    have hcons : (a :: as).filterMap write = [a].filterMap write ++ as.filterMap write := by
      rw [← List.filterMap_append, List.singleton_append]
    rw [forEach_cons, ih, hstep, hcons, List.foldl_append]

/-- An invariant of every round is an invariant of the loop. -/
theorem forEach_inv {I : σ → Prop} {body : α → Cmd σ ω} (h : ∀ a s, I s → I (body a s).1)
    (as : List α) {s : σ} (hs : I s) : I (forEach body as s).1 := by
  induction as generalizing s with
  | nil => exact hs
  | cons a as ih => exact ih (h a s hs)

/-- **The potential rule.** If each round's cost is paid for by what it takes out of a
potential and by what its records bring in, so is the cost of the loop. -/
theorem forEach_potential {I : σ → Prop} (Φ : σ → ℕ) (cost gain : ω → ℕ) {body : α → Cmd σ ω}
    (hI : ∀ a s, I s → I (body a s).1)
    (hstep : ∀ a s, I s →
      ((body a s).2.map cost).sum + Φ (body a s).1 ≤ Φ s + ((body a s).2.map gain).sum)
    (as : List α) {s : σ} (hs : I s) :
    ((forEach body as s).2.map cost).sum + Φ (forEach body as s).1 ≤
      Φ s + ((forEach body as s).2.map gain).sum := by
  induction as generalizing s with
  | nil => simp
  | cons a as ih =>
    have h1 := hstep a s hs
    have h2 := ih (hI a s hs)
    rw [forEach_cons]
    simp only [List.map_append, List.sum_append]
    omega

/-- Every record of a loop is left by one of its rounds. -/
theorem mem_forEach {body : α → Cmd σ ω} {as : List α} {s : σ} {o : ω} (h : o ∈ (forEach body as s).2) :
    ∃ pre a post, as = pre ++ a :: post ∧ o ∈ (body a (forEach body pre s).1).2 := by
  induction as generalizing s with
  | nil => simp at h
  | cons a as ih =>
    rw [forEach_cons] at h
    rcases List.mem_append.1 h with h | h
    · exact ⟨[], a, as, rfl, h⟩
    · obtain ⟨pre, b, post, rfl, ho⟩ := ih h
      exact ⟨a :: pre, b, post, rfl, ho⟩

end Cmd

/-! ## Monitors -/

/-- An automaton over records: how a record moves it, and which records it allows. -/
structure Monitor (κ : Type u) (ω : Type v) where
  next : κ → ω → κ
  ok : κ → ω → Prop

namespace Monitor

variable {κ ω : Type*} (m : Monitor κ ω)

/-- The monitor's state after reading records. -/
def run (k : κ) (os : List ω) : κ := os.foldl m.next k

/-- The monitor allows every record, each in the state the earlier ones lead to. -/
def Accepts : κ → List ω → Prop
  | _, [] => True
  | k, o :: os => m.ok k o ∧ Accepts (m.next k o) os

@[simp] theorem run_nil (k : κ) : m.run k [] = k := rfl

@[simp] theorem run_cons (k : κ) (o : ω) (os : List ω) : m.run k (o :: os) = m.run (m.next k o) os := rfl

theorem run_append (k : κ) (os os' : List ω) : m.run k (os ++ os') = m.run (m.run k os) os' :=
  List.foldl_append

@[simp] theorem accepts_nil (k : κ) : m.Accepts k [] := trivial

@[simp] theorem accepts_cons (k : κ) (o : ω) (os : List ω) :
    m.Accepts k (o :: os) ↔ m.ok k o ∧ m.Accepts (m.next k o) os := Iff.rfl

theorem accepts_append (k : κ) (os os' : List ω) :
    m.Accepts k (os ++ os') ↔ m.Accepts k os ∧ m.Accepts (m.run k os) os' := by
  induction os generalizing k with
  | nil => simp
  | cons o os ih => simp only [List.cons_append, accepts_cons, ih, run_cons, and_assoc]

variable {m} in
/-- Records that lead from one state to the next, one after the other. -/
theorem accepts_trans {k k' k'' : κ} {os os' : List ω} (h : m.Accepts k os ∧ m.run k os = k')
    (h' : m.Accepts k' os' ∧ m.run k' os' = k'') : m.Accepts k (os ++ os') ∧ m.run k (os ++ os') = k'' := by
  rw [m.accepts_append, m.run_append, h.2]
  exact ⟨⟨h.1, h'.1⟩, h'.2⟩

/-- A record that the monitor allows in a state, and stays there. -/
def Stays (k : κ) (o : ω) : Prop := m.next k o = k ∧ m.ok k o

variable {m} in
/-- Records that leave the monitor where it is. -/
theorem accepts_stay {k : κ} {os : List ω} (h : ∀ o ∈ os, m.Stays k o) :
    m.Accepts k os ∧ m.run k os = k := by
  induction os with
  | nil => exact ⟨trivial, rfl⟩
  | cons o os ih =>
    obtain ⟨hnext, hok⟩ := h o List.mem_cons_self
    obtain ⟨hacc, hrun⟩ := ih fun o' ho' => h o' (List.mem_cons_of_mem _ ho')
    rw [accepts_cons, run_cons, hnext]
    exact ⟨⟨hok, hacc⟩, hrun⟩

/-- A record that neither moves the monitor nor is refused by it. -/
def Ignores (o : ω) : Prop := ∀ k, m.Stays k o

variable {m} in
theorem Ignores.list {os : List ω} (h : ∀ o ∈ os, m.Ignores o) (k : κ) : m.Accepts k os ∧ m.run k os = k :=
  accepts_stay fun o ho => h o ho k

variable {m} in
/-- A monitor that knows and asks less. -/
theorem Accepts.map {κ' : Type*} {m' : Monitor κ' ω} (f : κ → κ') (hnext : ∀ k o, m'.next (f k) o = f (m.next k o))
    (hok : ∀ k o, m.ok k o → m'.ok (f k) o) {k : κ} {os : List ω} (h : m.Accepts k os) : m'.Accepts (f k) os := by
  induction os generalizing k with
  | nil => trivial
  | cons o os ih =>
    rw [accepts_cons] at h ⊢
    rw [hnext]
    exact ⟨hok k o h.1, ih h.2⟩

/-- The monitor that allows the records that satisfy `P`. -/
def always (P : ω → Prop) : Monitor Unit ω := ⟨fun _ _ => (), fun _ o => P o⟩

theorem always_accepts {P : ω → Prop} {os : List ω} : (always P).Accepts () os ↔ ∀ o ∈ os, P o := by
  induction os with
  | nil => simp
  | cons o os ih =>
    rw [accepts_cons, List.forall_mem_cons]
    exact and_congr_right fun _ => ih

end Monitor

/-! ## Hoare triples against a monitor -/

section Triple

variable {σ κ ω α : Type*} {m : Monitor κ ω} {R R' R'' S S' : σ → κ → Prop} {c d : Cmd σ ω}

/-- From related states, the monitor accepts the records of `c` and the states are
related by `R'` afterwards. -/
def Triple (m : Monitor κ ω) (R : σ → κ → Prop) (c : Cmd σ ω) (R' : σ → κ → Prop) : Prop :=
  ∀ s k, R s k → m.Accepts k (c s).2 ∧ R' (c s).1 (m.run k (c s).2)

namespace Triple

theorem skip : Triple m R Cmd.skip R := fun _ _ h => ⟨trivial, h⟩

theorem andThen (hc : Triple m R c R') (hd : Triple m R' d R'') : Triple m R (c.andThen d) R'' := by
  intro s k h
  obtain ⟨h1, h2⟩ := hc s k h
  obtain ⟨h3, h4⟩ := hd _ _ h2
  rw [Cmd.andThen_apply]
  exact ⟨(m.accepts_append _ _ _).2 ⟨h1, h3⟩, by rw [m.run_append]; exact h4⟩

/-- The rule of consequence. -/
theorem conseq (h : Triple m R c R') (hpre : ∀ s k, S s k → R s k) (hpost : ∀ s k, R' s k → S' s k) :
    Triple m S c S' := by
  intro s k hs
  obtain ⟨hacc, hend⟩ := h s k (hpre s k hs)
  exact ⟨hacc, hpost _ _ hend⟩

/-- A command that is only run in some states, and may rely on that. -/
theorem under {p : σ → Prop} [DecidablePred p] (h : Triple m (fun s k => p s ∧ R s k) c R) :
    Triple m R (fun s => if p s then c s else (s, [])) R := by
  intro s k hs
  by_cases hp : p s
  · simpa only [if_pos hp] using h s k ⟨hp, hs⟩
  · simp only [if_neg hp]
    exact ⟨trivial, hs⟩

/-- A command that is only run in some states. -/
theorem guard {p : σ → Prop} [DecidablePred p] (h : Triple m R c R) :
    Triple m R (fun s => if p s then c s else (s, [])) R :=
  under (h.conseq (fun _ _ hs => hs.2) fun _ _ hs => hs)

/-- **The loop rule.** What every round keeps, the loop keeps. -/
theorem forEach {body : α → Cmd σ ω} (h : ∀ a, Triple m R (body a) R) (as : List α) :
    Triple m R (Cmd.forEach body as) R := by
  induction as with
  | nil => exact skip
  | cons a as ih => exact andThen (h a) ih

end Triple

end Triple

/-! ## Refinement of runs -/

/-- **Refinement of runs.** `inp` reads the inputs of the second machine off the
records, `out` its outputs, `abs` its state. One step matching the run of its own
inputs is enough for whole runs to match. -/
theorem forEach_project {σ τ ω α ι υ : Type*} {I : σ → Prop} (abs : σ → τ) (inp : ω → List ι)
    (out : ω → List υ) {step : α → Cmd σ ω} {astep : ι → Cmd τ υ} (hI : ∀ a s, I s → I (step a s).1)
    (hstep : ∀ a s, I s → Cmd.forEach astep ((step a s).2.flatMap inp) (abs s) =
      (abs (step a s).1, (step a s).2.flatMap out)) (as : List α) {s : σ} (hs : I s) :
    Cmd.forEach astep ((Cmd.forEach step as s).2.flatMap inp) (abs s) =
      (abs (Cmd.forEach step as s).1, (Cmd.forEach step as s).2.flatMap out) := by
  induction as generalizing s with
  | nil => simp
  | cons a as ih =>
    have h1 := hstep a s hs
    have h2 := ih (hI a s hs)
    rw [Cmd.forEach_cons]
    simp only [List.flatMap_append]
    rw [Cmd.forEach_append, h1]
    simp only
    rw [h2]

end Mooooooo
