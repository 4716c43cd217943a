import Mathlib.Tactic

/-!
# Words as bytes, and bytes in a memory

A 32-bit word is its four bytes, the lowest first. `place` writes a list over a memory from
an address on.

* `eq_of_byte`, `byte_word`: a word is determined by its bytes, and any four bytes make one.
* `place_apply`, `place_outside`: what a memory holds afterwards, and that nothing else changes.
-/

namespace Bytes

/-! ## Words -/

/-- Byte `k` of a word. -/
def byte {n : ℕ} (w : BitVec n) (k : ℕ) : BitVec 8 := w.extractLsb' (8 * k) 8

/-- The word with the bytes `f 0` to `f 3`. -/
def word (f : ℕ → BitVec 8) : BitVec 32 := f 3 ++ f 2 ++ f 1 ++ f 0

/-- The four bytes of a word. -/
def bytes (w : BitVec 32) : List (BitVec 8) := [byte w 0, byte w 1, byte w 2, byte w 3]

theorem lt_four {p : ℕ → Prop} : (∀ k < 4, p k) ↔ p 0 ∧ p 1 ∧ p 2 ∧ p 3 := by
  constructor
  · intro h
    exact ⟨h 0 (by omega), h 1 (by omega), h 2 (by omega), h 3 (by omega)⟩
  · rintro ⟨h0, h1, h2, h3⟩ k hk
    have hcases : k = 0 ∨ k = 1 ∨ k = 2 ∨ k = 3 := by omega
    obtain rfl | rfl | rfl | rfl := hcases
    · exact h0
    · exact h1
    · exact h2
    · exact h3

theorem byte_word (f : ℕ → BitVec 8) : ∀ k < 4, byte (word f) k = f k := by
  rw [lt_four]
  unfold byte word
  refine ⟨?_, ?_, ?_, ?_⟩
  · ext i hi
    simp
    grind
  · ext i hi
    simp
    grind
  · ext i hi
    simp
    grind
  · ext i hi
    simp
    grind

theorem getLsbD_byte {n : ℕ} (w : BitVec n) (i : ℕ) : (byte w (i / 8)).getLsbD (i % 8) = w.getLsbD i := by
  have hlt : i % 8 < 8 := by omega
  have hdiv : 8 * (i / 8) + i % 8 = i := by omega
  unfold byte
  rw [BitVec.getLsbD_extractLsb', hdiv]
  simp [hlt]

/-- Words with the same bytes are the same. -/
theorem eq_of_byte {v w : BitVec 32} (h : ∀ k < 4, byte v k = byte w k) : v = w := by
  apply BitVec.eq_of_getLsbD_eq
  intro i hi
  rw [← getLsbD_byte v, ← getLsbD_byte w, h (i / 8) (by omega)]

/-- The low bytes do not change with the width. -/
theorem byte_setWidth {m n : ℕ} (w : BitVec m) {k : ℕ} (hk : 8 * k + 8 ≤ n) :
    byte (w.setWidth n) k = byte w k := by
  unfold byte
  ext i hi
  have hlt : 8 * k + i < n := by omega
  simp [hlt]

theorem byte_zero {n : ℕ} (k : ℕ) : byte (0 : BitVec n) k = 0 := by
  unfold byte
  simp

theorem getElem?_bytes (w : BitVec 32) : ∀ k < 4, (bytes w)[k]? = some (byte w k) := by
  rw [lt_four]
  exact ⟨rfl, rfl, rfl, rfl⟩

@[simp] theorem length_bytes (w : BitVec 32) : (bytes w).length = 4 := rfl

/-! ## Memories -/

section Place

variable {β : Type*}

/-- The memory `mem` with the list `bs` from address `a` on. -/
def place (mem : ℕ → β) (a : ℕ) (bs : List β) : ℕ → β := fun x =>
  if a ≤ x then (bs[x - a]?).getD (mem x) else mem x

variable (mem : ℕ → β) (a : ℕ) (bs : List β)

@[simp] theorem place_nil : place mem a [] = mem := by
  funext x
  unfold place
  split <;> simp

theorem place_apply {k : ℕ} (hk : k < bs.length) : place mem a bs (a + k) = bs[k] := by
  unfold place
  rw [if_pos (Nat.le_add_right a k), Nat.add_sub_cancel_left, List.getElem?_eq_getElem hk, Option.getD_some]

/-- Nothing changes outside. -/
theorem place_outside {x : ℕ} (h : x < a ∨ a + bs.length ≤ x) : place mem a bs x = mem x := by
  unfold place
  rcases h with h | h
  · rw [if_neg (by omega)]
  · rw [if_pos (by omega), List.getElem?_eq_none (by omega), Option.getD_none]

/-- A longer list is written by one more byte. -/
theorem place_concat (b : β) : place mem a (bs ++ [b]) = Function.update (place mem a bs) (a + bs.length) b := by
  funext x
  by_cases hx : x = a + bs.length
  · subst hx
    rw [Function.update_self, place_apply _ _ _ (by simp)]
    simp
  · rw [Function.update_of_ne hx]
    unfold place
    by_cases hlt : a ≤ x ∧ x - a < bs.length
    · rw [if_pos hlt.1, if_pos hlt.1, List.getElem?_append_left hlt.2]
    · by_cases ha : a ≤ x
      · have hend : bs.length + 1 ≤ x - a := by omega
        rw [if_pos ha, if_pos ha, List.getElem?_eq_none (by simpa using hend), List.getElem?_eq_none (by omega)]
      · rw [if_neg ha, if_neg ha]

end Place

end Bytes
