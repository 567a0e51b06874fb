import Mathlib.Logic.Function.Basic
import Mathlib.Tactic.Common

/-!
# Rings of the newest elements

A ring of fixed capacity is written at a running position and read back from there. Cells
are updated in place, so what counts of a cell is a view of it. The ring shows the newest
elements of a history, as many as there are and fit.
-/

set_option autoImplicit false

namespace Lib.Ring

variable {α β : Type*}

structure Slots (α : Type*) where
  cells : ℕ → α
  next : ℕ
  count : ℕ

def put (n : ℕ) (f : α → α) (r : Slots α) : Slots α where
  cells := Function.update r.cells r.next (f (r.cells r.next))
  next := (r.next+1) % n
  count := if r.count < n then r.count+1 else r.count

def back (n : ℕ) (r : Slots α) (k : ℕ) : Option α :=
  if r.count ≤ k then none else some (r.cells (((r.next+n-1) % n+n-k) % n))

/-- The ring shows a history, the newest element first. -/
structure Holds (n : ℕ) (view : α → β) (history : List β) (r : Slots α) : Prop where
  next : r.next = history.length % n
  count : r.count = min history.length n
  cells : ∀ k (h : k < history.length), k < n →
    view (r.cells ((history.length-1-k) % n)) = history[k]

theorem holds_empty (n : ℕ) (view : α → β) (cells : ℕ → α) : Holds n view [] ⟨cells, 0, 0⟩ where
  next := (Nat.zero_mod n).symm
  count := (Nat.zero_min n).symm
  cells := fun _ h => absurd h (Nat.not_lt_zero _)

theorem cells_ne (n len k : ℕ) (hk : k < len) (hn : k+1 < n) : (len-1-k) % n ≠ len % n := by
  intro h
  have hsub : (len-(len-1-k)) % n = 0 := Nat.sub_mod_eq_zero_of_mod_eq h.symm
  rw [show len-(len-1-k) = k+1 by omega, Nat.mod_eq_of_lt hn] at hsub
  omega

theorem holds_put {n : ℕ} {view : α → β} {history : List β} {r : Slots α}
    (h : Holds n view history r) (f : α → α) (b : β) (hf : ∀ a, view (f a) = b) :
    Holds n view (b::history) (put n f r) where
  next := by
    show (r.next+1) % n = (history.length+1) % n
    rw [h.next, Nat.mod_add_mod]
  count := by
    show (if r.count < n then r.count+1 else r.count) = min (history.length+1) n
    rw [h.count]
    split <;> omega
  cells := by
    intro k hk hkn
    show view (Function.update r.cells r.next (f (r.cells r.next)) ((history.length-k) % n)) = _
    rw [h.next]
    cases k with
    | zero =>
      rw [Nat.sub_zero, Function.update_self]
      exact hf _
    | succ k =>
      have hlen : k < history.length := Nat.lt_of_succ_lt_succ hk
      have hne := cells_ne n history.length k hlen hkn
      rw [show history.length-(k+1) = history.length-1-k by omega, Function.update_of_ne hne,
        List.getElem_cons_succ]
      exact h.cells k hlen (Nat.lt_of_succ_lt hkn)

theorem back_mod (n len k : ℕ) (hk : k < len) (hkn : k < n) :
    ((len % n+n-1) % n+n-k) % n = (len-1-k) % n := by
  rw [show len % n+n-1 = len % n+(n-1) by omega, Nat.mod_add_mod, Nat.add_sub_assoc (Nat.le_of_lt hkn),
    Nat.mod_add_mod, show len+(n-1)+(n-k) = len-1-k+n+n by omega, Nat.add_mod_right,
    Nat.add_mod_right]

/-- Reading shows the newest elements of the history and no other. -/
theorem holds_back {n : ℕ} {view : α → β} {history : List β} {r : Slots α}
    (h : Holds n view history r) (k : ℕ) : (back n r k).map view = (history.take n)[k]? := by
  rw [back, h.count, h.next]
  by_cases hk : min history.length n ≤ k
  · rw [if_pos hk, List.getElem?_eq_none (by rw [List.length_take]; omega)]
    rfl
  · have hlen : k < history.length := by omega
    have hkn : k < n := by omega
    rw [if_neg hk, Option.map_some, back_mod n _ k hlen hkn, h.cells k hlen hkn,
      List.getElem?_take_of_lt hkn, List.getElem?_eq_getElem hlen]

end Lib.Ring
