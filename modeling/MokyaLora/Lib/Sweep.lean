import Mathlib.Tactic.Common

/-!
# Loops over independent cells

A loop visits the cells of a list, and the step at one cell leaves what is seen of
another as it is. Then the whole loop does to a cell what its own step does.
-/

set_option autoImplicit false

namespace Lib.Sweep

variable {σ ι β : Type*} (f : σ → ι → σ) (view : σ → β)

theorem sweep_other (l : List ι) (hother : ∀ s, ∀ j ∈ l, view (f s j) = view s) (s : σ) :
    view (l.foldl f s) = view s := by
  induction l generalizing s with
  | nil => rfl
  | cons j l ih =>
    rw [List.foldl_cons, ih (fun s k hk => hother s k (List.mem_cons_of_mem j hk)),
      hother s j List.mem_cons_self]

theorem sweep_keeps (P : σ → Prop) (hP : ∀ s i, P s → P (f s i)) (l : List ι) (s : σ) (hs : P s) :
    P (l.foldl f s) := by
  induction l generalizing s with
  | nil => exact hs
  | cons j l ih => exact ih (f s j) (hP s j hs)

/-- The step at one cell decides what is seen of it, when no other cell of the list shows in
the view. -/
theorem sweep_cell (i : ι) (step : β → β) (l : List ι)
    (hother : ∀ s, ∀ j ∈ l, j ≠ i → view (f s j) = view s)
    (hself : ∀ s, view (f s i) = step (view s)) (hl : l.Nodup) (hi : i ∈ l) (s : σ) :
    view (l.foldl f s) = step (view s) := by
  induction l generalizing s with
  | nil => cases hi
  | cons j l ih =>
    rw [List.nodup_cons] at hl
    have hrest : ∀ s, ∀ k ∈ l, k ≠ i → view (f s k) = view s :=
      fun s k hk => hother s k (List.mem_cons_of_mem j hk)
    rw [List.foldl_cons]
    by_cases hj : j = i
    · rw [sweep_other f view l (fun s k hk => hrest s k hk ?_), hj, hself]
      rintro rfl
      exact hl.1 (hj ▸ hk)
    · have hmem := (List.mem_cons.mp hi).resolve_left (Ne.symm hj)
      rw [ih hrest hl.2 hmem, hother s j List.mem_cons_self hj]

theorem sweep_once (i : ι) (step : β → β) (hother : ∀ s, ∀ j ≠ i, view (f s j) = view s)
    (hself : ∀ s, view (f s i) = step (view s)) (l : List ι) (hl : l.Nodup) (hi : i ∈ l) (s : σ) :
    view (l.foldl f s) = step (view s) :=
  sweep_cell f view i step l (fun s j _ hj => hother s j hj) hself hl hi s

theorem sweep_reads {ρ : Type*} (read : ι → Option ρ) (g : σ → ι → ρ → σ) (value : ι → ρ)
    (l : List ι) (h : ∀ i ∈ l, read i = some (value i)) (s : σ) :
    l.foldlM (fun s i => (read i).map (g s i)) s = some (l.foldl (fun s i => g s i (value i)) s) := by
  induction l generalizing s with
  | nil => rfl
  | cons i l ih =>
    rw [List.foldlM_cons, h i List.mem_cons_self]
    exact ih (fun j hj => h j (List.mem_cons_of_mem i hj)) _

end Lib.Sweep
