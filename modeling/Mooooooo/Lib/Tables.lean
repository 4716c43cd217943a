import Mathlib.Data.List.Basic

/-!
# Walks over tables of tables

A depth-first walk over tables: a table is refused, or its entries are visited in order,
and an entry may lead to another table one level down. `Reach` are the tables a walk comes
to; `mem_walk` says that a walk records exactly what it records at each of them.
-/

namespace Tables

/-- What a walk records at a table, and where it goes from there. Each may depend on the
number of levels below the table. -/
structure Walker (τ ω : Type*) where
  width : ℕ
  opens : τ → Bool
  refuse : ℕ → τ → List ω
  visit : ℕ → τ → ℕ → List ω
  child : ℕ → τ → ℕ → Option τ

namespace Walker

variable {τ ω : Type*} (W : Walker τ ω)

/-- What is recorded at a table itself. -/
def records (n : ℕ) (t : τ) : List ω :=
  if W.opens t then (List.range W.width).flatMap (W.visit n t) else W.refuse n t

/-- The walk from a table with `n` levels below it. -/
def walk : ℕ → τ → List ω
  | 0, t => W.records 0 t
  | n + 1, t =>
    if W.opens t then
      (List.range W.width).flatMap fun i =>
        W.visit (n + 1) t i ++ (W.child (n + 1) t i).elim [] (walk n)
    else W.refuse (n + 1) t

/-- What a walk records from entry `i` of a table on, before it comes to the next. -/
def below : ℕ → τ → ℕ → List ω
  | 0, t, i => W.visit 0 t i
  | n + 1, t, i => W.visit (n + 1) t i ++ (W.child (n + 1) t i).elim [] (W.walk n)

/-- `Reach n t m u`: from table `t` with `n` levels below it, the walk comes to table `u`
with `m` levels below it. -/
inductive Reach (n : ℕ) (t : τ) : ℕ → τ → Prop
  | root : Reach n t n t
  | child {m : ℕ} {u u' : τ} {i : ℕ} : Reach n t (m + 1) u → W.opens u = true → i < W.width →
      W.child (m + 1) u i = some u' → Reach n t m u'

theorem walk_zero (t : τ) : W.walk 0 t =
    if W.opens t then (List.range W.width).flatMap (W.visit 0 t) else W.refuse 0 t := rfl

theorem walk_succ (n : ℕ) (t : τ) : W.walk (n + 1) t =
    if W.opens t then
      (List.range W.width).flatMap fun i =>
        W.visit (n + 1) t i ++ (W.child (n + 1) t i).elim [] (W.walk n)
    else W.refuse (n + 1) t := rfl

variable {W} {n m : ℕ} {t u : τ} {r : ω}

theorem walk_refused (ho : ¬W.opens t = true) : W.walk n t = W.refuse n t := by
  cases n with
  | zero => exact if_neg ho
  | succ n => exact if_neg ho

/-- What is reached from an entry's table is reached from the table. -/
theorem Reach.head {i : ℕ} {t' : τ} (ho : W.opens t = true) (hi : i < W.width)
    (hc : W.child (n + 1) t i = some t') (h : W.Reach n t' m u) : W.Reach (n + 1) t m u := by
  induction h with
  | root => exact .child .root ho hi hc
  | child _ ho hi hc ih => exact .child ih ho hi hc

theorem mem_records (hr : r ∉ W.refuse n t) :
    r ∈ W.records n t ↔ W.opens t = true ∧ ∃ i < W.width, r ∈ W.visit n t i := by
  unfold records
  by_cases ho : W.opens t = true
  · rw [if_pos ho, List.mem_flatMap, and_iff_right ho]
    simp only [List.mem_range]
  · rw [if_neg ho]
    exact iff_of_false hr fun h => ho h.1

/-- A table's own records come with those of the walks from its entries' tables. -/
theorem mem_walk_succ : r ∈ W.walk (n + 1) t ↔
    r ∈ W.records (n + 1) t ∨
      ∃ i < W.width, ∃ t', W.opens t = true ∧ W.child (n + 1) t i = some t' ∧ r ∈ W.walk n t' := by
  rw [walk_succ]
  unfold records
  by_cases ho : W.opens t = true
  · rw [if_pos ho, if_pos ho]
    simp only [List.mem_flatMap, List.mem_range, List.mem_append, ho, true_and]
    constructor
    · rintro ⟨i, hi, hv | hc⟩
      · exact .inl ⟨i, hi, hv⟩
      · cases h : W.child (n + 1) t i with
        | none => simp [h] at hc
        | some t' => exact .inr ⟨i, hi, t', h, by simpa [h] using hc⟩
    · rintro (⟨i, hi, hv⟩ | ⟨i, hi, t', hc, hr⟩)
      · exact ⟨i, hi, .inl hv⟩
      · exact ⟨i, hi, .inr (by simpa [hc] using hr)⟩
  · simp [ho]

/-- **What a walk records** is what it records at the tables it comes to. -/
theorem mem_walk : r ∈ W.walk n t ↔ ∃ m u, W.Reach n t m u ∧ r ∈ W.records m u := by
  constructor
  · intro h
    induction n generalizing t with
    | zero => exact ⟨0, t, .root, h⟩
    | succ n ih =>
      rcases mem_walk_succ.1 h with hr | ⟨i, hi, t', ho, hc, hr⟩
      · exact ⟨n + 1, t, .root, hr⟩
      · obtain ⟨m, u, hreach, hu⟩ := ih hr
        exact ⟨m, u, hreach.head ho hi hc, hu⟩
  · rintro ⟨m, u, hreach, hr⟩
    have hlocal : r ∈ W.walk m u := by
      cases m with
      | zero => exact hr
      | succ m => exact mem_walk_succ.2 (.inl hr)
    clear hr
    induction hreach with
    | root => exact hlocal
    | child _ ho hi hc ih => exact ih (mem_walk_succ.2 (.inr ⟨_, hi, _, ho, hc, hlocal⟩))

/-- **Walks that correspond** table by table and record by record do so as a whole. -/
theorem walk_map {τ' ω' : Type*} {W' : Walker τ' ω'} (g : τ → τ') (f : ω → List ω') (hwidth : W'.width = W.width)
    (hopens : ∀ t, W'.opens (g t) = W.opens t) (hrefuse : ∀ n t, W'.refuse n (g t) = (W.refuse n t).flatMap f)
    (hvisit : ∀ n t i, W'.visit n (g t) i = (W.visit n t i).flatMap f)
    (hchild : ∀ n t i, W'.child n (g t) i = (W.child n t i).map g) (n : ℕ) (t : τ) :
    W'.walk n (g t) = (W.walk n t).flatMap f := by
  induction n generalizing t with
  | zero =>
    unfold walk records
    rw [hopens, hwidth, hrefuse]
    split
    · rw [List.flatMap_assoc]
      exact List.flatMap_congr fun i _ => hvisit 0 t i
    · rfl
  | succ n ih =>
    rw [walk_succ, walk_succ, hopens, hwidth, hrefuse]
    split
    · rw [List.flatMap_assoc]
      apply List.flatMap_congr
      intro i _
      rw [List.flatMap_append, hvisit, hchild]
      cases W.child (n + 1) t i with
      | none => rfl
      | some t' => exact congrArg _ (ih t')
    · rfl

/-- **A walk depends on the tables that it comes to** only. -/
theorem walk_congr {W' : Walker τ ω} (hwidth : W'.width = W.width)
    (htable : ∀ m u, W.Reach n t m u → W'.opens u = W.opens u ∧ W'.refuse m u = W.refuse m u)
    (hentry : ∀ m u, W.Reach n t m u → W.opens u = true → ∀ i < W.width,
      W'.visit m u i = W.visit m u i ∧ W'.child m u i = W.child m u i) : W'.walk n t = W.walk n t := by
  induction n generalizing t with
  | zero =>
    obtain ⟨hopens, hrefuse⟩ := htable 0 t .root
    rw [walk_zero, walk_zero, hopens, hwidth, hrefuse]
    by_cases ho : W.opens t = true
    · rw [if_pos ho, if_pos ho]
      exact List.flatMap_congr fun i hi => (hentry 0 t .root ho i (List.mem_range.1 hi)).1
    · rw [if_neg ho, if_neg ho]
  | succ n ih =>
    obtain ⟨hopens, hrefuse⟩ := htable (n + 1) t .root
    rw [walk_succ, walk_succ, hopens, hwidth, hrefuse]
    by_cases ho : W.opens t = true
    · rw [if_pos ho, if_pos ho]
      apply List.flatMap_congr
      intro i hi
      obtain ⟨hvisit, hchild⟩ := hentry (n + 1) t .root ho i (List.mem_range.1 hi)
      rw [hvisit, hchild]
      cases hc : W.child (n + 1) t i with
      | none => rfl
      | some t' =>
        have hhead : ∀ m u, W.Reach n t' m u → W.Reach (n + 1) t m u :=
          fun m u hr => hr.head ho (List.mem_range.1 hi) hc
        exact congrArg _ (ih (fun m u hr => htable m u (hhead m u hr)) fun m u hr => hentry m u (hhead m u hr))
    · rw [if_neg ho, if_neg ho]

theorem walk_of_opens (ho : W.opens t = true) : W.walk n t = (List.range W.width).flatMap (W.below n t) := by
  cases n with
  | zero => exact if_pos ho
  | succ n => exact if_pos ho

/-- **A relation along a walk**: it holds within each entry's records, down from them, and
from each entry to the later ones of its table. -/
theorem walk_pairwise {R : ω → ω → Prop} (I : ℕ → τ → Prop) (hI : I n t)
    (hrefuse : ∀ n t, I n t → (W.refuse n t).Pairwise R)
    (hvisit : ∀ n t i, I n t → (W.visit n t i).Pairwise R)
    (hchild : ∀ n t t' i, I (n + 1) t → i < W.width → W.child (n + 1) t i = some t' → I n t')
    (hdown : ∀ n t i, I (n + 1) t → ∀ x ∈ W.visit (n + 1) t i,
      ∀ y ∈ (W.child (n + 1) t i).elim [] (W.walk n), R x y)
    (hnext : ∀ n t i j, I n t → i < j → j < W.width → ∀ x ∈ W.below n t i, ∀ y ∈ W.below n t j, R x y) :
    (W.walk n t).Pairwise R := by
  induction n generalizing t with
  | zero =>
    by_cases ho : W.opens t = true
    · rw [walk_of_opens ho, List.pairwise_flatMap]
      refine ⟨fun i _ => hvisit 0 t i hI, List.pairwise_lt_range.imp_of_mem ?_⟩
      intro i j _ hj hij
      exact hnext 0 t i j hI hij (List.mem_range.1 hj)
    · rw [walk_refused ho]
      exact hrefuse 0 t hI
  | succ n ih =>
    by_cases ho : W.opens t = true
    · rw [walk_of_opens ho, List.pairwise_flatMap]
      refine ⟨fun i hi => ?_, List.pairwise_lt_range.imp_of_mem ?_⟩
      · refine List.pairwise_append.2 ⟨hvisit (n + 1) t i hI, ?_, hdown n t i hI⟩
        cases hc : W.child (n + 1) t i with
        | none => exact List.Pairwise.nil
        | some t' => exact ih (hchild n t t' i hI (List.mem_range.1 hi) hc)
      · intro i j _ hj hij
        exact hnext (n + 1) t i j hI hij (List.mem_range.1 hj)
    · rw [walk_refused ho]
      exact hrefuse (n + 1) t hI

end Walker

end Tables
