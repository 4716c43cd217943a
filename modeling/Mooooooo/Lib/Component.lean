import Mooooooo.Lib.Cmd

/-!
# Components of a machine

A component is a machine inside a machine: a part of the state, the inputs it gets and the
outputs it makes, both read off the records, and its own step.

* `Component.Sees`: a command is, for the component, the run of the inputs that its records
  show. It is closed under sequencing, loops and guards (`Sees.andThen`, `Sees.forEach`,
  `Sees.guard`); `Sees.quiet` is for commands that do not touch the component.
* `Keeps`, `Leaves`: a command keeps a part of the state; its records satisfy a predicate.
  `Triple.quiet` is for monitors that ignore what a command leaves.
* `simulate`: **simulation of runs**, where a step of the one machine is a step of the other.
-/

namespace Mooooooo

variable {σ ω τ ι υ α β : Type*}

/-! ## What a command keeps and leaves -/

/-- The command does not change what `part` sees of the state. -/
def Keeps (part : σ → τ) (c : Cmd σ ω) : Prop := ∀ s, part (c s).1 = part s

/-- The records of the command satisfy `P`. -/
def Leaves (P : ω → Prop) (c : Cmd σ ω) : Prop := ∀ s, ∀ o ∈ (c s).2, P o

section Frame

variable {part : σ → τ} {P : ω → Prop} {c d : Cmd σ ω}

theorem Keeps.skip : Keeps part (Cmd.skip : Cmd σ ω) := fun _ => rfl

theorem Keeps.andThen (hc : Keeps part c) (hd : Keeps part d) : Keeps part (c.andThen d) := fun s =>
  (hd (c s).1).trans (hc s)

theorem Keeps.forEach {body : α → Cmd σ ω} (h : ∀ a, Keeps part (body a)) (as : List α) :
    Keeps part (Cmd.forEach body as) := by
  induction as with
  | nil => exact Keeps.skip
  | cons a as ih => exact (h a).andThen ih

theorem Keeps.guard {p : σ → Prop} [DecidablePred p] (h : Keeps part c) :
    Keeps part fun s => if p s then c s else (s, []) := by
  intro s
  by_cases hp : p s
  · simpa only [if_pos hp] using h s
  · simp only [if_neg hp]

theorem Leaves.skip : Leaves P (Cmd.skip : Cmd σ ω) := fun _ _ ho => by simp at ho

theorem Leaves.emit {f : σ → σ} {r : σ → ω} (h : ∀ s, P (r s)) : Leaves P (Cmd.emit f r) := by
  intro s o ho
  rw [Cmd.emit_apply, List.mem_singleton] at ho
  exact ho ▸ h _

theorem Leaves.andThen (hc : Leaves P c) (hd : Leaves P d) : Leaves P (c.andThen d) := by
  intro s o ho
  rcases List.mem_append.1 ho with ho | ho
  · exact hc s o ho
  · exact hd _ o ho

theorem Leaves.forEach {body : α → Cmd σ ω} (h : ∀ a, Leaves P (body a)) (as : List α) :
    Leaves P (Cmd.forEach body as) := by
  induction as with
  | nil => exact Leaves.skip
  | cons a as ih => exact (h a).andThen ih

theorem Leaves.guard {p : σ → Prop} [DecidablePred p] (h : Leaves P c) :
    Leaves P fun s => if p s then c s else (s, []) := by
  intro s o ho
  by_cases hp : p s
  · exact h s o (by simpa only [if_pos hp] using ho)
  · simp [if_neg hp] at ho

/-- A command whose records leave the monitor where it is. -/
theorem Triple.stays {κ : Type*} {m : Monitor κ ω} {R : σ → κ → Prop} (hkeeps : ∀ s k, R s k → R (c s).1 k)
    (hrec : ∀ s k, R s k → ∀ o ∈ (c s).2, m.Stays k o) : Triple m R c R := by
  intro s k hs
  obtain ⟨hacc, hrun⟩ := Monitor.accepts_stay (hrec s k hs)
  exact ⟨hacc, hrun.symm ▸ hkeeps s k hs⟩

/-- A command that leaves records which a monitor ignores. -/
theorem Triple.quiet {κ : Type*} {m : Monitor κ ω} {R : σ → κ → Prop} (hkeeps : ∀ s k, R s k → R (c s).1 k)
    (hrec : Leaves m.Ignores c) : Triple m R c R :=
  .stays hkeeps fun s k _ o ho => hrec s o ho k

end Frame

/-! ## Components -/

/-- A part of the state, the inputs and the outputs in a record, and the step on an input. -/
structure Component (σ ω τ ι υ : Type*) where
  part : σ → τ
  inp : ω → List ι
  out : ω → List υ
  step : ι → Cmd τ υ

namespace Component

variable {v : Component σ ω τ ι υ} {c d : Cmd σ ω}

/-- The inputs of the component in a list of records. -/
def inputs (v : Component σ ω τ ι υ) (os : List ω) : List ι := os.flatMap v.inp

/-- The outputs of the component in a list of records. -/
def outputs (v : Component σ ω τ ι υ) (os : List ω) : List υ := os.flatMap v.out

theorem inputs_append (os os' : List ω) : v.inputs (os ++ os') = v.inputs os ++ v.inputs os' :=
  List.flatMap_append

theorem outputs_append (os os' : List ω) : v.outputs (os ++ os') = v.outputs os ++ v.outputs os' :=
  List.flatMap_append

/-- The component runs on the inputs that it finds in the records of the command. -/
def Sees (v : Component σ ω τ ι υ) (c : Cmd σ ω) : Prop :=
  ∀ s, Cmd.forEach v.step (v.inputs (c s).2) (v.part s) = (v.part (c s).1, v.outputs (c s).2)

/-- A command that leaves the component alone. -/
theorem Sees.quiet (hpart : Keeps v.part c) (hrec : Leaves (fun o => v.inp o = [] ∧ v.out o = []) c) :
    v.Sees c := by
  intro s
  have hi : v.inputs (c s).2 = [] := List.flatMap_eq_nil_iff.2 fun o ho => (hrec s o ho).1
  have ho : v.outputs (c s).2 = [] := List.flatMap_eq_nil_iff.2 fun o ho => (hrec s o ho).2
  rw [hi, ho, hpart, Cmd.forEach_nil]

theorem Sees.skip : v.Sees Cmd.skip := fun _ => rfl

theorem Sees.andThen (hc : v.Sees c) (hd : v.Sees d) : v.Sees (c.andThen d) := by
  intro s
  rw [Cmd.andThen_apply]
  dsimp only
  rw [inputs_append, outputs_append, Cmd.forEach_append, hc s]
  dsimp only
  rw [hd (c s).1]

theorem Sees.forEach {body : α → Cmd σ ω} (h : ∀ a, v.Sees (body a)) (as : List α) :
    v.Sees (Cmd.forEach body as) := by
  induction as with
  | nil => exact Sees.skip
  | cons a as ih => exact (h a).andThen ih

/-- A command that is only run in some states. -/
theorem Sees.guard {p : σ → Prop} [DecidablePred p] (h : v.Sees c) :
    v.Sees fun s => if p s then c s else (s, []) := by
  intro s
  by_cases hp : p s
  · simpa only [if_pos hp] using h s
  · simp only [if_neg hp]
    rfl

end Component

/-- **Simulation of runs.** Where each step of the one machine that keeps `I` is a step of the other,
each run is a run of the other. -/
theorem simulate {I : σ → Prop} (part : σ → τ) (out : ω → List υ) (R : α → β → Prop) {step : α → Cmd σ ω}
    {g : β → Cmd τ υ} {s : σ}
    (hstep : ∀ a s, I (step a s).1 → I s ∧ ∃ b, R a b ∧ g b (part s) = (part (step a s).1, (step a s).2.flatMap out))
    (as : List α) (hs : I (Cmd.forEach step as s).1) :
    ∃ bs, List.Forall₂ R as bs ∧ Cmd.forEach g bs (part s) =
      (part (Cmd.forEach step as s).1, (Cmd.forEach step as s).2.flatMap out) := by
  induction as using List.reverseRecOn with
  | nil => exact ⟨[], .nil, rfl⟩
  | append_singleton as a ih =>
    rw [Cmd.forEach_concat] at hs ⊢
    obtain ⟨hbefore, b, hab, hb⟩ := hstep a _ hs
    obtain ⟨bs, hrel, hbs⟩ := ih hbefore
    refine ⟨bs ++ [b], List.rel_append hrel (.cons hab .nil), ?_⟩
    rw [Cmd.forEach_concat, hbs]
    dsimp only
    rw [hb, List.flatMap_append]

end Mooooooo
