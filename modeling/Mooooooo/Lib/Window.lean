import Mathlib.Tactic

/-!
# Windows of word registers

A window of an address space whose accesses are dispatched, by ranges of addresses, to
the words of a struct. A `Row` is one range: the member it goes to, and the address that
is subtracted to compute the index into the member.

* `Window.decode_eq`: in a window of rows that fit, an aligned address goes to the word
  at its own offset, inside the member.
* `Window.stores_word`: a word whose addresses are dispatched holds what was last written in it.
* `Window.stores_apply`: **after any aligned writes, a word of a window of rows that fit
  holds what was last written at its address.**
-/

namespace Mooooooo

/-- The addresses `[lo, hi)`, dispatched to a member at the index that the distance from
`base` gives. -/
structure Row (φ : Type*) where
  lo : ℕ
  hi : ℕ
  base : ℕ
  member : φ

/-- The ranges of a window, in the order in which they are tried. -/
abbrev Window (φ : Type*) := List (Row φ)

variable {φ δ : Type*}

namespace Row

/-- The row holds the address. -/
def Holds (r : Row φ) (a : ℕ) : Prop := r.lo ≤ a ∧ a < r.hi

instance (r : Row φ) (a : ℕ) : Decidable (r.Holds a) := inferInstanceAs (Decidable (_ ∧ _))

/-- The index that the row computes. -/
def index (r : Row φ) (a : ℕ) : ℕ := (a - r.base) / 4

/-- The row computes indices from its own start, where its member is, and ends in it. -/
structure Fits (off size : φ → ℕ) (r : Row φ) : Prop where
  base : r.base = r.lo
  start : off r.member = r.lo
  stop : r.hi ≤ r.lo + size r.member
  aligned : 4 ∣ r.lo
  words : 4 ∣ size r.member

instance (off size : φ → ℕ) (r : Row φ) : Decidable (r.Fits off size) :=
  decidable_of_iff (r.base = r.lo ∧ off r.member = r.lo ∧ r.hi ≤ r.lo + size r.member ∧ 4 ∣ r.lo ∧
    4 ∣ size r.member) ⟨fun ⟨h1, h2, h3, h4, h5⟩ => ⟨h1, h2, h3, h4, h5⟩,
      fun h => ⟨h.base, h.start, h.stop, h.aligned, h.words⟩⟩

/-- An address in a row that fits goes to the word that it lies in. -/
theorem Fits.index_word {off size : φ → ℕ} {r : Row φ} (h : r.Fits off size) {a : ℕ} (ha : r.Holds a) :
    off r.member + 4 * r.index a = a / 4 * 4 := by
  have hlo := ha.1
  have hbase := h.base
  have hstart := h.start
  obtain ⟨m, hm⟩ := h.aligned
  unfold Row.index
  omega

/-- An aligned address in a row that fits goes to the word at its own offset, inside the member. -/
theorem Fits.index {off size : φ → ℕ} {r : Row φ} (h : r.Fits off size) {a : ℕ} (ha : r.Holds a) (h4 : 4 ∣ a) :
    off r.member + 4 * r.index a = a ∧ 4 * r.index a + 4 ≤ size r.member := by
  have hword := h.index_word ha
  have hhi := ha.2
  have hstart := h.start
  have hstop := h.stop
  obtain ⟨m, hm⟩ := h.aligned
  obtain ⟨n, hn⟩ := h.words
  omega

end Row

/-! ## Reads and writes -/

/-- The last value written at an address. -/
def lastWrite (ws : List (ℕ × δ)) (a : ℕ) : Option δ := ((ws.filter fun w => w.1 = a).map Prod.snd).getLast?

@[simp] theorem lastWrite_nil (a : ℕ) : lastWrite ([] : List (ℕ × δ)) a = none := rfl

theorem lastWrite_concat (ws : List (ℕ × δ)) (w : ℕ × δ) (a : ℕ) :
    lastWrite (ws ++ [w]) a = if w.1 = a then some w.2 else lastWrite ws a := by
  unfold lastWrite
  rw [List.filter_append]
  by_cases h : w.1 = a <;> simp [h]

theorem lastWrite_append (ws vs : List (ℕ × δ)) (a : ℕ) :
    lastWrite (ws ++ vs) a = (lastWrite vs a).or (lastWrite ws a) := by
  unfold lastWrite
  rw [List.filter_append, List.map_append, List.getLast?_append]

theorem lastWrite_map {γ : Type*} (f : δ → γ) (ws : List (ℕ × δ)) (a : ℕ) :
    lastWrite (ws.map fun w => (w.1, f w.2)) a = (lastWrite ws a).map f := by
  induction ws using List.reverseRecOn with
  | nil => rfl
  | append_singleton ws w ih =>
    rw [List.map_append, List.map_singleton, lastWrite_concat, lastWrite_concat, ih]
    split <;> rfl

namespace Window

/-- The member and the index that an address is dispatched to. -/
def decode (w : Window φ) (a : ℕ) : Option (φ × ℕ) :=
  (w.find? fun r => r.Holds a).map fun r => (r.member, r.index a)

@[simp] theorem decode_nil (a : ℕ) : decode ([] : Window φ) a = none := rfl

theorem decode_cons (r : Row φ) (w : Window φ) (a : ℕ) :
    decode (r :: w) a = if r.Holds a then some (r.member, r.index a) else decode w a := by
  unfold decode
  by_cases h : r.Holds a <;> simp [h]

/-- The row that an address is dispatched by. -/
theorem decode_row {w : Window φ} {a : ℕ} {c : φ × ℕ} (h : w.decode a = some c) :
    ∃ r ∈ w, r.Holds a ∧ c = (r.member, r.index a) := by
  obtain ⟨r, hr, rfl⟩ := Option.map_eq_some_iff.1 h
  exact ⟨r, List.mem_of_find?_eq_some hr, by simpa using List.find?_some hr, rfl⟩

theorem decode_isSome {w : Window φ} {a : ℕ} : (w.decode a).isSome ↔ ∃ r ∈ w, r.Holds a := by
  simp [decode]

/-- An address outside a row is dispatched as if the row were not there. -/
theorem decode_without {r : Row φ} {a : ℕ} (h : ¬r.Holds a) (u v : Window φ) :
    Window.decode (u ++ r :: v) a = Window.decode (u ++ v) a := by
  unfold decode
  rw [List.find?_append, List.find?_cons_of_neg (by simpa using h), List.find?_append]

/-- **Aligned addresses go to their own offset, inside a member.** -/
theorem decode_eq {off size : φ → ℕ} {w : Window φ} (hw : ∀ r ∈ w, r.Fits off size) {a : ℕ} (h4 : 4 ∣ a)
    {c : φ × ℕ} (h : w.decode a = some c) : off c.1 + 4 * c.2 = a ∧ 4 * c.2 + 4 ≤ size c.1 := by
  obtain ⟨r, hr, ha, rfl⟩ := decode_row h
  exact (hw r hr).index ha h4

/-- The struct after a write; an address that no row holds writes nothing. -/
def store (w : Window φ) (off : φ → ℕ) (words : ℕ → δ) (a : ℕ) (d : δ) : ℕ → δ :=
  match w.decode a with
  | some c => Function.update words (off c.1 + 4 * c.2) d
  | none => words

/-- What a write does to a word whose addresses are dispatched. -/
theorem store_word {off size : φ → ℕ} {w : Window φ} (hw : ∀ r ∈ w, r.Fits off size) {a b : ℕ}
    (hb : a / 4 * 4 = b → (w.decode a).isSome) (words : ℕ → δ) (d : δ) :
    w.store off words a d b = if a / 4 * 4 = b then d else words b := by
  unfold store
  cases hc : w.decode a with
  | none =>
    rw [hc] at hb
    rw [if_neg fun h => Bool.false_ne_true (hb h)]
  | some c =>
    obtain ⟨r, hr, ha, rfl⟩ := decode_row hc
    dsimp only
    rw [(hw r hr).index_word ha]
    by_cases hab : a / 4 * 4 = b
    · rw [if_pos hab, hab, Function.update_self]
    · rw [if_neg hab, Function.update_of_ne (Ne.symm hab)]

/-- **A word is one cell.** After writes at any addresses, it holds what was last written in it. -/
theorem stores_word {off size : φ → ℕ} {w : Window φ} (hw : ∀ r ∈ w, r.Fits off size) (words : ℕ → δ)
    (ws : List (ℕ × δ)) {b : ℕ} (hb : ∀ x ∈ ws, x.1 / 4 * 4 = b → (w.decode x.1).isSome) :
    ws.foldl (fun m x => w.store off m x.1 x.2) words b =
      (lastWrite (ws.map fun x => (x.1 / 4 * 4, x.2)) b).getD (words b) := by
  induction ws using List.reverseRecOn with
  | nil => rfl
  | append_singleton ws x ih =>
    have hrec := ih fun y hy => hb y (List.mem_append_left _ hy)
    have hx := hb x (List.mem_append_right _ (List.mem_singleton_self x))
    rw [List.foldl_append, List.foldl_cons, List.foldl_nil, store_word hw hx, hrec, List.map_append,
      List.map_singleton, lastWrite_concat]
    split <;> rfl

/-- **Last write wins.** After aligned writes, a word of the window holds what was last
written at its address. -/
theorem stores_apply {off size : φ → ℕ} {w : Window φ} (hw : ∀ r ∈ w, r.Fits off size) (words : ℕ → δ)
    (ws : List (ℕ × δ)) (h4 : ∀ x ∈ ws, 4 ∣ x.1) {b : ℕ} (hb : (w.decode b).isSome) :
    ws.foldl (fun m x => w.store off m x.1 x.2) words b = (lastWrite ws b).getD (words b) := by
  have hself : ∀ x ∈ ws, x.1 / 4 * 4 = x.1 := fun x hx => Nat.div_mul_cancel (h4 x hx)
  have hmap : (ws.map fun x => (x.1 / 4 * 4, x.2)) = ws := by
    have hid : ∀ x ∈ ws, (x.1 / 4 * 4, x.2) = id x := fun x hx => Prod.ext (hself x hx) rfl
    rw [List.map_congr_left hid, List.map_id]
  rw [stores_word hw words ws, hmap]
  intro x hx heq
  rw [← hself x hx, heq]
  exact hb

end Window

end Mooooooo
