import Mathlib.Data.List.Basic
import Mathlib.Logic.Function.Basic
import Mathlib.Tactic.Common

/-!
# Moving the cells of an array in place

An array is its contents at every index. Cells are kept by copying them down to a
second index that runs behind the first, a block is moved up from its last cell to its
first, and a list is written to the front.
-/

set_option autoImplicit false

namespace Lib.Inplace

variable {β : Type*}

def cells (a : ℕ → β) (off n : ℕ) : List β := (List.range n).map (fun i => a (off+i))

/-- Copies down the cells that are not dropped, from index `i` on, and counts the places. -/
def keep (drop : β → Bool) : ℕ → ℕ → ℕ → (ℕ → β) → (ℕ → β) × ℕ
  | 0, _, dst, a => (a, dst)
  | n+1, i, dst, a =>
    if drop (a i) then keep drop n (i+1) dst a
    else keep drop n (i+1) (dst+1) (if dst ≠ i then Function.update a dst (a i) else a)

def moveUp (k : ℕ) : ℕ → (ℕ → β) → (ℕ → β)
  | 0, a => a
  | i+1, a => moveUp k i (Function.update a (k+i) (a i))

def writeFrom : ℕ → List β → (ℕ → β) → (ℕ → β)
  | _, [], a => a
  | i, x::xs, a => writeFrom (i+1) xs (Function.update a i x)

@[simp] theorem cells_length (a : ℕ → β) (off n : ℕ) : (cells a off n).length = n := by
  simp [cells]

theorem cells_congr (a b : ℕ → β) (off n : ℕ) (h : ∀ i < n, a (off+i) = b (off+i)) :
    cells a off n = cells b off n :=
  List.map_congr_left (fun i hi => h i (List.mem_range.mp hi))

theorem cells_succ (a : ℕ → β) (off n : ℕ) : cells a off (n+1) = cells a off n++[a (off+n)] := by
  simp [cells, List.range_succ]

theorem cells_cons (a : ℕ → β) (off n : ℕ) : cells a off (n+1) = a off::cells a (off+1) n := by
  simp [cells, List.range_succ_eq_map, Function.comp_def, Nat.add_assoc, Nat.add_comm 1]

theorem cells_add (a : ℕ → β) (off m n : ℕ) :
    cells a off (m+n) = cells a off m++cells a (off+m) n := by
  induction n with
  | zero => simp [cells]
  | succ n ih => rw [← Nat.add_assoc, cells_succ, ih, cells_succ, List.append_assoc, Nat.add_assoc]

theorem cells_take (a : ℕ → β) (off m n : ℕ) (h : m ≤ n) :
    (cells a off n).take m = cells a off m := by
  obtain ⟨k, rfl⟩ := Nat.exists_eq_add_of_le h
  rw [cells_add, List.take_left' (cells_length a off m)]

theorem keep_cells (drop : β → Bool) (n i dst : ℕ) (a : ℕ → β) (h : dst ≤ i) :
    cells (keep drop n i dst a).1 0 (keep drop n i dst a).2 =
      cells a 0 dst++(cells a i n).filter (fun x => !drop x) := by
  induction n generalizing i dst a with
  | zero => simp [keep, cells]
  | succ n ih =>
    rw [keep, cells_cons]
    by_cases hd : drop (a i) = true
    · rw [if_pos hd, ih (i+1) dst a (by omega)]
      simp [hd]
    · have hcopy : (if dst ≠ i then Function.update a dst (a i) else a) =
          Function.update a dst (a i) := by
        by_cases heq : dst = i <;> simp [heq]
      have hfront : cells (Function.update a dst (a i)) 0 (dst+1) = cells a 0 dst++[a i] := by
        rw [cells_succ, Nat.zero_add, Function.update_self]
        congr 1
        apply cells_congr
        intro j hj
        rw [Function.update_of_ne (by omega)]
      have hrest : cells (Function.update a dst (a i)) (i+1) n = cells a (i+1) n := by
        apply cells_congr
        intro j hj
        rw [Function.update_of_ne (by omega)]
      rw [if_neg hd, hcopy, ih (i+1) (dst+1) _ (by omega), hfront, hrest]
      simp [hd]

theorem move_above (k n : ℕ) (a : ℕ → β) (j : ℕ) (h : k+n ≤ j) : moveUp k n a j = a j := by
  induction n generalizing a with
  | zero => rfl
  | succ n ih => rw [moveUp, ih _ (by omega), Function.update_of_ne (by omega)]

theorem move_cells (k n : ℕ) (a : ℕ → β) : cells (moveUp k n a) k n = cells a 0 n := by
  induction n generalizing a with
  | zero => rfl
  | succ n ih =>
    rw [cells_succ, cells_succ, moveUp, ih, move_above _ _ _ _ (Nat.le_refl _), Function.update_self,
      Nat.zero_add]
    congr 1
    apply cells_congr
    intro j hj
    rw [Function.update_of_ne (by omega)]

theorem write_above (i : ℕ) (xs : List β) (a : ℕ → β) (j : ℕ) (h : j < i ∨ i+xs.length ≤ j) :
    writeFrom i xs a j = a j := by
  induction xs generalizing i a with
  | nil => rfl
  | cons x xs ih =>
    rw [List.length_cons] at h
    rw [writeFrom, ih (i+1) _ (by omega), Function.update_of_ne (by omega)]

theorem write_cells (i : ℕ) (xs : List β) (a : ℕ → β) :
    cells (writeFrom i xs a) i xs.length = xs := by
  induction xs generalizing i a with
  | nil => rfl
  | cons x xs ih =>
    rw [List.length_cons, cells_cons, writeFrom, ih, write_above _ _ _ _ (.inl (by omega)),
      Function.update_self]

/-- What is kept, cut to `m` cells and moved up, behind a list at the front. -/
theorem splice_cells (drop : β → Bool) (front : List β) (n m : ℕ) (a : ℕ → β)
    (hm : m ≤ (keep drop n 0 0 a).2) :
    cells (writeFrom 0 front (moveUp front.length m (keep drop n 0 0 a).1)) 0 (front.length+m) =
      front++((cells a 0 n).filter (fun x => !drop x)).take m := by
  have htail : cells (writeFrom 0 front (moveUp front.length m (keep drop n 0 0 a).1))
      (0+front.length) m = cells (moveUp front.length m (keep drop n 0 0 a).1) front.length m := by
    rw [Nat.zero_add]
    apply cells_congr
    intro j hj
    exact write_above _ _ _ _ (.inr (by omega))
  have hkeep := keep_cells drop n 0 0 a (Nat.le_refl _)
  rw [cells_add, write_cells, htail, move_cells, ← cells_take _ _ _ _ hm, hkeep]
  simp [cells]

end Lib.Inplace
