import Mathlib.Tactic.Common

/-!
# Programs of fallible calls

A program is a tree of calls to an environment; each reply selects how it goes on. A call
that fails ends the program, as does an error of its own, and what was done before stays
done. Pre- and postconditions are about the runs in which every call meets a condition in
the state in which it is made; a failed run has a postcondition of its own.
-/

set_option autoImplicit false

namespace Lib.Program

variable {τ : Type} {ρ : τ → Type} {α β σ : Type}

inductive Prog (τ : Type) (ρ : τ → Type) (α : Type) where
  | ret (a : α)
  | fail
  | call (t : τ) (k : ρ t → Prog τ ρ α)

def Prog.bind : Prog τ ρ α → (α → Prog τ ρ β) → Prog τ ρ β
  | .ret a, f => f a
  | .fail, _ => .fail
  | .call t k, f => .call t (fun r => (k r).bind f)

instance : Monad (Prog τ ρ) where
  pure := .ret
  bind := .bind

@[simp] theorem ret_bind (a : α) (f : α → Prog τ ρ β) : ((.ret a : Prog τ ρ α) >>= f) = f a := rfl

@[simp] theorem fail_bind (f : α → Prog τ ρ β) : ((.fail : Prog τ ρ α) >>= f) = .fail := rfl

@[simp] theorem call_bind (t : τ) (k : ρ t → Prog τ ρ α) (f : α → Prog τ ρ β) :
    ((.call t k : Prog τ ρ α) >>= f) = .call t (fun r => k r >>= f) := rfl

def op (t : τ) : Prog τ ρ (ρ t) := .call t .ret

abbrev Handler (ρ : τ → Type) (σ : Type) := (t : τ) → σ → Option (ρ t) × σ

def run (perform : Handler ρ σ) : Prog τ ρ α → σ → Option α × σ
  | .ret a, s => (some a, s)
  | .fail, s => (none, s)
  | .call t k, s =>
    match perform t s with
    | (some r, u) => run perform (k r) u
    | (none, u) => (none, u)

/-- Every call of the run meets the condition in the state it is made in. -/
def Along (perform : Handler ρ σ) (ok : τ → σ → Prop) : Prog τ ρ α → σ → Prop
  | .ret _, _ => True
  | .fail, _ => True
  | .call t k, s => ok t s ∧
    match perform t s with
    | (some r, u) => Along perform ok (k r) u
    | (none, _) => True

def Calls (P : τ → Prop) : Prog τ ρ α → Prop
  | .ret _ => True
  | .fail => True
  | .call t k => P t ∧ ∀ r, Calls P (k r)

instance instDecidableAlong (perform : Handler ρ σ) (ok : τ → σ → Prop)
    [∀ t s, Decidable (ok t s)] : ∀ (p : Prog τ ρ α) (s : σ), Decidable (Along perform ok p s)
  | .ret _, _ => isTrue trivial
  | .fail, _ => isTrue trivial
  | .call t k, s =>
    have : Decidable (match perform t s with
        | (some r, u) => Along perform ok (k r) u
        | (none, _) => True) :=
      match perform t s with
      | (some r, u) => instDecidableAlong perform ok (k r) u
      | (none, _) => isTrue trivial
    inferInstanceAs (Decidable (ok t s ∧ match perform t s with
      | (some r, u) => Along perform ok (k r) u
      | (none, _) => True))

/-- A result that is as wanted, and a state that is right when there is none. -/
def Ends (post : α → σ → Prop) (exc : σ → Prop) : Option α × σ → Prop
  | (some a, s) => post a s
  | (none, s) => exc s

def Meets (perform : Handler ρ σ) (ok : τ → σ → Prop) (pre : σ → Prop) (p : Prog τ ρ α)
    (post : α → σ → Prop) (exc : σ → Prop) : Prop :=
  ∀ s, pre s → Along perform ok p s → Ends post exc (run perform p s)

section Rules
variable {perform : Handler ρ σ} {ok : τ → σ → Prop} {pre : σ → Prop} {exc : σ → Prop}

theorem run_bind (p : Prog τ ρ α) (f : α → Prog τ ρ β) (s : σ) :
    run perform (p >>= f) s =
      match run perform p s with
      | (some a, u) => run perform (f a) u
      | (none, u) => (none, u) := by
  induction p generalizing s with
  | ret a => rw [ret_bind, run]
  | fail => rw [fail_bind, run, run]
  | call t k ih =>
    rw [call_bind, run, run]
    rcases perform t s with ⟨r, u⟩
    cases r with
    | none => rfl
    | some r => exact ih r u

theorem along_bind (p : Prog τ ρ α) (f : α → Prog τ ρ β) (s : σ) :
    Along perform ok (p >>= f) s ↔ Along perform ok p s ∧
      ∀ a u, run perform p s = (some a, u) → Along perform ok (f a) u := by
  induction p generalizing s with
  | ret a => simp [run, Along]
  | fail => simp [run, Along]
  | call t k ih =>
    rw [call_bind, Along, Along, run]
    rcases perform t s with ⟨r, u⟩
    cases r with
    | none => simp
    | some r => simp only [ih r u, and_assoc]

theorem ends_bind {mid : α → σ → Prop} {post : β → σ → Prop} {p : Prog τ ρ α}
    {f : α → Prog τ ρ β} {s : σ} (hp : Ends mid exc (run perform p s))
    (hf : ∀ a u, run perform p s = (some a, u) → mid a u → Ends post exc (run perform (f a) u)) :
    Ends post exc (run perform (p >>= f) s) := by
  rw [run_bind]
  cases hr : run perform p s with
  | mk a u =>
    rw [hr] at hp
    cases a with
    | none => exact hp
    | some a => exact hf a u hr hp

theorem ends_either {P : σ → Prop} {r : Option α × σ} (h : Ends (fun _ => P) P r) : P r.2 := by
  rcases r with ⟨a, u⟩
  cases a <;> exact h

theorem ends_mono {post post' : α → σ → Prop} {exc' : σ → Prop} {r : Option α × σ}
    (h : Ends post exc r) (hpost : ∀ a s, post a s → post' a s) (hexc : ∀ s, exc s → exc' s) :
    Ends post' exc' r := by
  rcases r with ⟨a, u⟩
  cases a with
  | none => exact hexc u h
  | some a => exact hpost a u h

theorem ends_some {post : α → σ → Prop} {r : Option α × σ} (h : Ends post exc r)
    (hr : r.1.isSome = true) : ∃ a, post a r.2 := by
  rcases r with ⟨a, u⟩
  cases a with
  | none => exact absurd hr Bool.false_ne_true
  | some a => exact ⟨a, h⟩

theorem meets_ret {post : α → σ → Prop} {a : α} (h : ∀ s, pre s → post a s) :
    Meets perform ok pre (pure a) post exc :=
  fun s hs _ => h s hs

theorem meets_fail {post : α → σ → Prop} (h : ∀ s, pre s → exc s) :
    Meets perform ok pre .fail post exc :=
  fun s hs _ => h s hs

/-- One call, from what its handler does. -/
theorem meets_op {t : τ} {post : ρ t → σ → Prop}
    (h : ∀ s, pre s → ok t s → Ends post exc (perform t s)) :
    Meets perform ok pre (op t) post exc := by
  intro s hs ha
  rw [op, Along] at ha
  have hend := h s hs ha.1
  rw [op, run]
  revert hend
  rcases perform t s with ⟨r, u⟩
  intro hend
  cases r with
  | none => exact hend
  | some r => exact hend

theorem meets_bind {mid : α → σ → Prop} {post : β → σ → Prop} {p : Prog τ ρ α}
    {f : α → Prog τ ρ β} (hp : Meets perform ok pre p mid exc)
    (hf : ∀ a, Meets perform ok (mid a) (f a) post exc) :
    Meets perform ok pre (p >>= f) post exc := by
  intro s hs ha
  have hrun := (along_bind p f s).mp ha
  exact ends_bind (hp s hs hrun.1) (fun a u hr hu => hf a u hu (hrun.2 a u hr))

theorem meets_mono {pre' : σ → Prop} {post post' : α → σ → Prop} {exc' : σ → Prop}
    {p : Prog τ ρ α} (h : Meets perform ok pre p post exc) (hpre : ∀ s, pre' s → pre s)
    (hpost : ∀ a s, post a s → post' a s) (hexc : ∀ s, exc s → exc' s) :
    Meets perform ok pre' p post' exc' := by
  intro s hs ha
  exact ends_mono (h s (hpre s hs) ha) hpost hexc

theorem along_true (p : Prog τ ρ α) (s : σ) : Along perform (fun _ _ => True) p s := by
  induction p generalizing s with
  | ret a => trivial
  | fail => trivial
  | call t k ih =>
    rw [Along]
    rcases perform t s with ⟨r, u⟩
    cases r with
    | none => exact ⟨trivial, trivial⟩
    | some r => exact ⟨trivial, ih r u⟩

theorem calls_op {P : τ → Prop} {t : τ} (h : P t) : Calls P (op t : Prog τ ρ (ρ t)) :=
  ⟨h, fun _ => trivial⟩

theorem calls_bind {P : τ → Prop} {p : Prog τ ρ α} {f : α → Prog τ ρ β} (hp : Calls P p)
    (hf : ∀ a, Calls P (f a)) : Calls P (p >>= f) := by
  induction p with
  | ret a => exact hf a
  | fail => trivial
  | call t k ih => exact ⟨hp.1, fun r => ih r (hp.2 r)⟩

theorem run_keeps {P : τ → Prop} (inv : σ → Prop)
    (hstep : ∀ t s, P t → inv s → inv (perform t s).2) (p : Prog τ ρ α) (hp : Calls P p) (s : σ)
    (hs : inv s) : inv (run perform p s).2 := by
  induction p generalizing s with
  | ret a => exact hs
  | fail => exact hs
  | call t k ih =>
    have hu := hstep t s hp.1 hs
    rw [run]
    revert hu
    rcases perform t s with ⟨r, u⟩
    intro hu
    cases r with
    | none => exact hu
    | some r => exact ih r (hp.2 r) u hu

end Rules

end Lib.Program
