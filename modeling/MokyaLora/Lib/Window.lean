import MokyaLora.Lib.Counter
import Mathlib.Data.List.Basic
import Mathlib.Data.Nat.Basic

/-!
# Windows of a history in circular memory

A circular memory of `n` cells shows the end of a history, each element in the cell of
its number modulo `n`. Elements are added in cells outside the window and published
afterwards; the window shrinks from its old end.
-/

set_option autoImplicit false

namespace Lib.Window
open Lib.Counter

variable {α : Type*} {n lo : ℕ} {cells : ℕ → α} {history : List α}

/-- The cells show the history from number `lo` on. -/
def Holds (n : ℕ) (cells : ℕ → α) (history : List α) (lo : ℕ) : Prop :=
  ∀ i (h : i < history.length), lo ≤ i → cells (i % n) = history[i]

theorem holds_nil (n : ℕ) (cells : ℕ → α) (lo : ℕ) : Holds n cells [] lo :=
  fun i h => absurd h (Nat.not_lt_zero i)

theorem Holds.later (h : Holds n cells history lo) {hi : ℕ} (hle : lo ≤ hi) :
    Holds n cells history hi :=
  fun i hi' hlo => h i hi' (le_trans hle hlo)

/-- A cell behind the window, less than one turn from its old end, is not in it. -/
theorem cell_free (i k len : ℕ) (hlo : lo ≤ i) (hi : i < len) (hk : len+k < lo+n) :
    (len+k) % n ≠ i % n :=
  mod_ne_of_window (len+k) i n (by omega) (by omega)

theorem Holds.frame (h : Holds n cells history lo) {cells' : ℕ → α}
    (heq : ∀ i, lo ≤ i → i < history.length → cells' (i % n) = cells (i % n)) :
    Holds n cells' history lo :=
  fun i hi hlo => (heq i hlo hi).trans (h i hi hlo)

theorem Holds.publish (h : Holds n cells history lo) {batch : List α}
    (hbatch : ∀ k (hk : k < batch.length), cells ((history.length+k) % n) = batch[k]) :
    Holds n cells (history++batch) lo := by
  intro i hi hlo
  by_cases hold : i < history.length
  · rw [List.getElem_append_left hold]
    exact h i hold hlo
  · rw [List.getElem_append_right (by omega)]
    rw [List.length_append] at hi
    have hnew := hbatch (i-history.length) (by omega)
    rwa [Nat.add_sub_cancel' (by omega)] at hnew

end Lib.Window
