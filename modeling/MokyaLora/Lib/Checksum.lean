import Mathlib.Data.List.Basic
import Mathlib.Tactic.Common

/-!
# Checksums that are folded letter by letter

Where a step of the fold is injective in the running value, two sums that part never
meet again. Where it is injective in the letter as well, one letter that is put in the
place of a different one always changes the sum.
-/

set_option autoImplicit false

namespace Lib.Checksum

variable {σ α : Type*} {step : σ → α → σ}

theorem foldl_injective (hstate : ∀ a, Function.Injective (fun s => step s a)) (as : List α) :
    Function.Injective (fun s => as.foldl step s) := by
  induction as with
  | nil => exact fun _ _ h => h
  | cons a as ih => exact fun s t h => hstate a (ih h)

theorem foldl_set_ne (hstate : ∀ a, Function.Injective (fun s => step s a))
    (hletter : ∀ s, Function.Injective (step s)) (as : List α) (i : ℕ) (a : α)
    (hi : i < as.length) (ha : a ≠ as[i]) (s : σ) :
    (as.set i a).foldl step s ≠ as.foldl step s := by
  induction as generalizing i s with
  | nil => simp at hi
  | cons b as ih =>
    cases i with
    | zero =>
      intro h
      exact ha (hletter s (foldl_injective hstate as h))
    | succ i =>
      simp only [List.length_cons, Nat.add_lt_add_iff_right] at hi
      exact ih i hi ha (step s b)

end Lib.Checksum
