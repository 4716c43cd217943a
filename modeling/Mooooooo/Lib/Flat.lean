import Mooooooo.Lib.Regions

/-!
# Flat memories

A memory whose addresses are placed in cells elsewhere. As long as no two addresses share a
cell, it cannot be told from an array with one entry for each address.

* `Placement.view_store`: **a store through the placement is a store in the array.**
* `Table.placement`: the placement of a table of disjoint regions, each backed by a block of
  its own.
-/

namespace Mooooooo

variable {α β γ δ : Type*}

/-- The cells of addresses, no cell with two of them. -/
structure Placement (α γ : Type*) where
  cell : α → Option γ
  inj : ∀ {a b : α} {c : γ}, cell a = some c → cell b = some c → a = b

/-- A store in an array that has only some of the addresses. -/
def putFlat [DecidableEq α] (flat : α → Option δ) (a : α) (d : δ) : α → Option δ := fun b =>
  if b = a then (flat a).map fun _ => d else flat b

namespace Placement

variable [DecidableEq α] [DecidableEq γ] (p : Placement α γ)

/-- The array that the addresses see. -/
def view (mem : γ → δ) : α → Option δ := fun a => (p.cell a).map mem

/-- A store at an address; where it has no cell, nothing is stored. -/
def store (mem : γ → δ) (a : α) (d : δ) : γ → δ :=
  match p.cell a with
  | some c => Function.update mem c d
  | none => mem

/-- **A store through the placement is a store in the array.** -/
theorem view_store (mem : γ → δ) (a : α) (d : δ) : p.view (p.store mem a d) = putFlat (p.view mem) a d := by
  funext b
  unfold view store putFlat
  dsimp only
  cases ha : p.cell a with
  | none =>
    -- nothing is stored
    by_cases hb : b = a
    · rw [if_pos hb, hb, ha]
      rfl
    · rw [if_neg hb]
  | some c =>
    by_cases hb : b = a
    · rw [if_pos hb, hb, ha]
      simp
    · rw [if_neg hb]
      cases hc : p.cell b with
      | none => rfl
      | some c' =>
        -- another address has another cell
        have hne : c' ≠ c := fun h => hb (p.inj (h ▸ hc) ha)
        simp [Function.update_of_ne hne]

/-- The same cells under other names for the addresses. -/
def comap (f : β → α) (hf : Function.Injective f) : Placement β γ where
  cell b := p.cell (f b)
  inj ha hb := hf (p.inj ha hb)

end Placement

namespace Table

/-- The cell of an address in a table: a block, if the region is backed by one, and the offset in it. -/
def cell (sel : β → Option γ) (t : Table ℕ β) (a : ℕ) : Option (γ × ℕ) :=
  (t.find a).bind fun r => (sel r.back).map fun block => (block, a - r.org)

theorem cell_isSome_iff {sel : β → Option γ} {t : Table ℕ β} (hd : t.Disjoint) (a : ℕ) :
    (t.cell sel a).isSome ↔ ∃ r ∈ t, r.Mem a ∧ (sel r.back).isSome := by
  unfold cell
  constructor
  · intro h
    obtain ⟨c, hc⟩ := Option.isSome_iff_exists.1 h
    obtain ⟨r, hr, hrc⟩ := Option.bind_eq_some_iff.1 hc
    obtain ⟨block, hsel, -⟩ := Option.map_eq_some_iff.1 hrc
    obtain ⟨hmem, hin⟩ := (find_iff hd a).1 hr
    exact ⟨r, hmem, hin, by rw [hsel]; rfl⟩
  · rintro ⟨r, hmem, hin, hsel⟩
    rw [(find_iff hd a).2 ⟨hmem, hin⟩]
    simpa using hsel

/-- Each block backs one region of the table, from its start on. -/
structure OwnBlocks (sel : β → Option γ) (t : Table ℕ β) : Prop where
  disjoint : t.Disjoint
  own : ∀ r ∈ t, ∀ r' ∈ t, (sel r.back).isSome → sel r.back = sel r'.back → r = r'
  org : ∀ r ∈ t, r.org = r.lo

/-- **The placement of a table whose regions have blocks of their own.** -/
def placement (sel : β → Option γ) (t : Table ℕ β) (h : OwnBlocks sel t) : Placement ℕ (γ × ℕ) where
  cell := t.cell sel
  inj := by
    intro a b c ha hb
    unfold cell at ha hb
    obtain ⟨r, hr, hra⟩ := Option.bind_eq_some_iff.1 ha
    obtain ⟨r', hr', hrb⟩ := Option.bind_eq_some_iff.1 hb
    obtain ⟨block, hsel, rfl⟩ := Option.map_eq_some_iff.1 hra
    obtain ⟨block', hsel', hcell⟩ := Option.map_eq_some_iff.1 hrb
    simp only [Prod.mk.injEq] at hcell
    obtain ⟨rfl, hoff⟩ := hcell
    obtain ⟨hmem, hin⟩ := (find_iff h.disjoint a).1 hr
    obtain ⟨hmem', hin'⟩ := (find_iff h.disjoint b).1 hr'
    have hrr : r = r' := h.own r hmem r' hmem' (by rw [hsel]; rfl) (hsel.trans hsel'.symm)
    subst hrr
    have horg := h.org r hmem
    have h1 := hin.1
    have h2 := hin'.1
    omega

end Table

end Mooooooo
