import Mathlib.Data.List.Basic
import Mathlib.Tactic.Common

/-!
# Transducers

A machine takes one letter at a time and puts out a list with each of them. How a
stream is cut into chunks makes no difference, and an invariant of one letter is one of
a stream.
-/

set_option autoImplicit false

namespace Lib.Transducer

variable {σ α β : Type*}

def run (step : σ → α → σ × List β) : σ → List α → σ × List β
  | s, [] => (s, [])
  | s, a::as => ((run step (step s a).1 as).1, (step s a).2++(run step (step s a).1 as).2)

def runChunks (step : σ → α → σ × List β) : σ → List (List α) → σ × List β :=
  run (run step)

@[simp] theorem run_nil (step : σ → α → σ × List β) (s : σ) : run step s [] = (s, []) := rfl

@[simp] theorem run_cons (step : σ → α → σ × List β) (s : σ) (a : α) (as : List α) :
    run step s (a::as) =
      ((run step (step s a).1 as).1, (step s a).2++(run step (step s a).1 as).2) := rfl

theorem run_append (step : σ → α → σ × List β) (s : σ) (as bs : List α) :
    run step s (as++bs) =
      ((run step (run step s as).1 bs).1, (run step s as).2++(run step (run step s as).1 bs).2) := by
  induction as generalizing s with
  | nil => simp
  | cons a as ih => simp [ih]

theorem run_chunks (step : σ → α → σ × List β) (s : σ) (chunks : List (List α)) :
    runChunks step s chunks = run step s chunks.flatten := by
  induction chunks generalizing s with
  | nil => simp [runChunks]
  | cons c chunks ih =>
    rw [List.flatten_cons, run_append, ← ih]
    simp [runChunks]

theorem run_invariant (step : σ → α → σ × List β) (Inv : σ → Prop)
    (hstep : ∀ s a, Inv s → Inv (step s a).1) (s : σ) (as : List α) (h : Inv s) :
    Inv (run step s as).1 := by
  induction as generalizing s with
  | nil => simpa using h
  | cons a as ih => exact ih (step s a).1 (hstep s a h)

/-- A relation between what went in, what came out and the state, over a whole stream. -/
theorem run_history (step : σ → α → σ × List β) (R : List α → List β → σ → Prop)
    (hstep : ∀ as bs s a, R as bs s → R (as++[a]) (bs++(step s a).2) (step s a).1)
    (as : List α) (bs : List β) (s : σ) (h : R as bs s) (cs : List α) :
    R (as++cs) (bs++(run step s cs).2) (run step s cs).1 := by
  induction cs generalizing as bs s with
  | nil => simpa using h
  | cons c cs ih =>
    have hnext := ih (as++[c]) (bs++(step s c).2) (step s c).1 (hstep as bs s c h)
    simpa using hnext

end Lib.Transducer
