import Mathlib.Tactic
import Mathlib.Order.Interval.Basic

/-!
# Region tables

An address space as a list of half-open ranges, each backed by some block: adding a
range fails when it overlaps one that is there, cutting a range takes its addresses out
of all ranges, and looking an address up finds the range that holds it.

* `Table.cut_mid`: **cutting a region that is on its own in its range removes that
  region and nothing else**, so it undoes `Table.add`.
* `Table.find_iff`: in a table of disjoint regions, lookup finds the region that
  holds the address.
-/

namespace Mooooooo

universe u v

/-- The addresses `[lo, hi)`, backed by `back`. `org` is the address of the first
byte of `back`: cutting a region moves `lo` but not `org`. -/
structure Region (α : Type u) (β : Type v) where
  lo : α
  hi : α
  org : α
  back : β
deriving DecidableEq, Repr

/-- An address space: its regions in the order they were added. -/
abbrev Table (α : Type u) (β : Type v) := List (Region α β)

variable {α β : Type*} [LinearOrder α]

namespace Region

/-- The region holds the address. -/
def Mem (r : Region α β) (a : α) : Prop := r.lo ≤ a ∧ a < r.hi

/-- The region has an address in `[lo, hi)`, for nonempty ranges. -/
def Meets (r : Region α β) (lo hi : α) : Prop := r.lo < hi ∧ lo < r.hi

instance (r : Region α β) (a : α) : Decidable (r.Mem a) := inferInstanceAs (Decidable (_ ∧ _))

instance (r : Region α β) (lo hi : α) : Decidable (r.Meets lo hi) :=
  inferInstanceAs (Decidable (_ ∧ _))

/-- What is left of a region without the addresses `[lo, hi)`. -/
def cut (lo hi : α) (r : Region α β) : Table α β :=
  (if r.lo < min r.hi lo then [{ r with hi := min r.hi lo }] else []) ++
    (if max r.lo hi < r.hi then [{ r with lo := max r.lo hi }] else [])

theorem Mem.meets {r : Region α β} {a lo hi : α} (h : r.Mem a) (h1 : lo ≤ a) (h2 : a < hi) :
    r.Meets lo hi := ⟨lt_of_le_of_lt h.1 h2, lt_of_le_of_lt h1 h.2⟩

/-- A region inside the range is removed. -/
theorem cut_of_inside {lo hi : α} {r : Region α β} (h1 : lo ≤ r.lo) (h2 : r.hi ≤ hi) : r.cut lo hi = [] := by
  unfold cut
  rw [if_neg (not_lt.2 ((min_le_right _ _).trans h1)), if_neg (not_lt.2 (h2.trans (le_max_right _ _)))]
  rfl

/-- A nonempty region outside the range stays as it is. -/
theorem cut_of_outside {lo hi : α} {r : Region α β} (hle : lo ≤ hi) (hne : r.lo < r.hi)
    (hm : ¬r.Meets lo hi) : r.cut lo hi = [r] := by
  unfold Meets at hm
  rcases le_or_gt hi r.lo with h | h
  · unfold cut
    rw [if_neg (not_lt.2 ((min_le_right _ _).trans (hle.trans h))), max_eq_left h, if_pos hne]
    rfl
  · have h' : r.hi ≤ lo := not_lt.1 fun h' => hm ⟨h, h'⟩
    unfold cut
    rw [min_eq_left h', if_pos hne, if_neg (not_lt.2 ((h'.trans hle).trans (le_max_right _ _)))]
    rfl

end Region

namespace Table

/-- Add a region, unless it overlaps one that is there. -/
def add (t : Table α β) (r : Region α β) : Option (Table α β) :=
  if t.any (fun p => decide (p.Meets r.lo r.hi)) then none else some (t ++ [r])

/-- Remove the addresses `[lo, hi)`. -/
def cut (lo hi : α) (t : Table α β) : Table α β := t.flatMap (Region.cut lo hi)

/-- The region that holds an address. -/
def find (t : Table α β) (a : α) : Option (Region α β) := t.find? fun r => decide (r.Mem a)

/-- No region of the table has an address in `[lo, hi)`, and none is empty. -/
def Clear (t : Table α β) (lo hi : α) : Prop := ∀ p ∈ t, p.lo < p.hi ∧ ¬p.Meets lo hi

instance (t : Table α β) (lo hi : α) : Decidable (t.Clear lo hi) :=
  inferInstanceAs (Decidable (∀ p ∈ t, _))

/-- No two regions of the table overlap. -/
def Disjoint (t : Table α β) : Prop := t.Pairwise fun p q => ¬p.Meets q.lo q.hi

instance (t : Table α β) : Decidable t.Disjoint :=
  inferInstanceAs (Decidable (t.Pairwise fun p q => ¬p.Meets q.lo q.hi))

variable {t : Table α β} {r : Region α β}

/-- A region that meets none of the table's is added at the end. -/
theorem add_of_clear (h : t.Clear r.lo r.hi) : t.add r = some (t ++ [r]) := by
  unfold add
  rw [if_neg]
  simp only [List.any_eq_true, decide_eq_true_eq, not_exists, not_and]
  exact fun p hp => (h p hp).2

@[simp] theorem cut_append (lo hi : α) (t t' : Table α β) :
    cut lo hi (t ++ t') = cut lo hi t ++ cut lo hi t' := List.flatMap_append

/-- A table with nothing in the range stays as it is. -/
theorem cut_of_clear {lo hi : α} (hle : lo ≤ hi) (h : t.Clear lo hi) : cut lo hi t = t := by
  induction t with
  | nil => rfl
  | cons p t ih =>
    have hp := h p List.mem_cons_self
    have ht := ih fun q hq => h q (List.mem_cons_of_mem _ hq)
    unfold cut at ht ⊢
    rw [List.flatMap_cons, Region.cut_of_outside hle hp.1 hp.2, ht]
    rfl

/-- **Cutting a region's own range removes that region and nothing else**, where no
other region has an address in it. -/
theorem cut_mid {t' : Table α β} (hne : r.lo ≤ r.hi) (h : t.Clear r.lo r.hi) (h' : t'.Clear r.lo r.hi) :
    cut r.lo r.hi (t ++ r :: t') = t ++ t' := by
  rw [cut_append, cut_of_clear hne h, show r :: t' = [r] ++ t' from rfl, cut_append,
    cut_of_clear hne h']
  have : cut r.lo r.hi [r] = [] := by
    unfold cut; rw [List.flatMap_singleton, Region.cut_of_inside le_rfl le_rfl]
  rw [this, List.nil_append]

/-- In a table of disjoint regions an address is in at most one. -/
theorem Disjoint.unique (hd : t.Disjoint) {p q : Region α β} {a : α} (hp : p ∈ t) (hq : q ∈ t)
    (hpa : p.Mem a) (hqa : q.Mem a) : p = q := by
  induction t with
  | nil => simp at hp
  | cons x t ih =>
    obtain ⟨hx, ht⟩ := List.pairwise_cons.1 hd
    rcases List.mem_cons.1 hp with rfl | hp' <;> rcases List.mem_cons.1 hq with rfl | hq'
    · rfl
    · exact absurd (hpa.meets hqa.1 hqa.2) (hx q hq')
    · exact absurd (hqa.meets hpa.1 hpa.2) (hx p hp')
    · exact ih ht hp' hq'

/-- **Lookup finds the region that holds the address.** -/
theorem find_iff (hd : t.Disjoint) (a : α) : t.find a = some r ↔ r ∈ t ∧ r.Mem a := by
  unfold find
  constructor
  · intro h
    exact ⟨List.mem_of_find?_eq_some h, by simpa using List.find?_some h⟩
  · rintro ⟨hr, ha⟩
    cases h : t.find? fun p => decide (p.Mem a) with
    | none =>
      have := List.find?_eq_none.1 h r hr
      simp [ha] at this
    | some p =>
      have hp := List.mem_of_find?_eq_some h
      have hpa : p.Mem a := by simpa using List.find?_some h
      rw [hd.unique hp hr hpa ha]

end Table

end Mooooooo
