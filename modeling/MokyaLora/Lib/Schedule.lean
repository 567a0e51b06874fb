import Mathlib.Tactic.Common

/-!
# Schedules of a guarded step function

A system is a partial step function: `step s a` is `none` when action `a` is
not enabled in `s`. A run is a list of actions, so an interleaving is just the
order in which the parties' actions stand in the list. A condition on the steps
of a run is checked in the state before each step.
-/

set_option autoImplicit false

namespace Lib.Schedule

variable {σ α : Type*}

def exec (step : σ → α → Option σ) : σ → List α → Option σ
  | s, [] => some s
  | s, a::as => (step s a).bind (fun t => exec step t as)

/-- Every step of the run meets the condition in the state it starts from. -/
def Along (step : σ → α → Option σ) (ok : σ → α → Prop) : σ → List α → Prop
  | _, [] => True
  | s, a::as => ok s a ∧ ∀ t, step s a = some t → Along step ok t as

instance instDecidableAlong (step : σ → α → Option σ) (ok : σ → α → Prop) [∀ s a, Decidable (ok s a)] :
    ∀ (as : List α) (s : σ), Decidable (Along step ok s as)
  | [], _ => isTrue trivial
  | a::as, s =>
    match h : step s a with
    | none => decidable_of_iff (ok s a) (by simp [Along, h])
    | some t =>
      have := instDecidableAlong step ok as t
      decidable_of_iff (ok s a ∧ Along step ok t as) (by simp [Along, h])

def Reaches (step : σ → α → Option σ) (s t : σ) : Prop :=
  ∃ as, exec step s as = some t

theorem exec_append (step : σ → α → Option σ) (as bs : List α) (s : σ) :
    exec step s (as++bs) = (exec step s as).bind (fun t => exec step t bs) := by
  induction as generalizing s with
  | nil => rfl
  | cons a as ih =>
    simp only [List.cons_append, exec]
    cases step s a with
    | none => rfl
    | some t => exact ih t

theorem exec_trans (step : σ → α → Option σ) (as bs : List α) (s t u : σ)
    (hs : exec step s as = some t) (ht : exec step t bs = some u) :
    exec step s (as++bs) = some u := by
  rw [exec_append, hs]
  exact ht

theorem along_append (step : σ → α → Option σ) (ok : σ → α → Prop) (as bs : List α) (s t : σ)
    (h : Along step ok s (as++bs)) (ht : exec step s as = some t) :
    Along step ok s as ∧ Along step ok t bs := by
  induction as generalizing s with
  | nil =>
    rw [exec, Option.some.injEq] at ht
    exact ⟨trivial, ht ▸ h⟩
  | cons a as ih =>
    obtain ⟨u, hu, hexec⟩ := Option.bind_eq_some_iff.mp ht
    obtain ⟨has, hbs⟩ := ih u (h.2 u hu) hexec
    refine ⟨⟨h.1, fun v hv => ?_⟩, hbs⟩
    rw [hu, Option.some.injEq] at hv
    exact hv ▸ has

/-- Repeating one action reaches the goal when it stays enabled and decreases a
measure until then. -/
theorem exec_until (step : σ → α → Option σ) (a : α) (inv goal : σ → Prop) (μ : σ → ℕ)
    (hstep : ∀ s, inv s → ¬ goal s → ∃ t, step s a = some t ∧ inv t ∧ μ t < μ s)
    (s : σ) (hs : inv s) :
    ∃ k t, exec step s (List.replicate k a) = some t ∧ inv t ∧ goal t := by
  induction hm : μ s using Nat.strongRecOn generalizing s with
  | ind m ih =>
    by_cases hg : goal s
    · exact ⟨0, s, rfl, hs, hg⟩
    · obtain ⟨t, ht, hi, hlt⟩ := hstep s hs hg
      obtain ⟨k, u, hu, hui, hug⟩ := ih (μ t) (hm ▸ hlt) t hi rfl
      exact ⟨k+1, u, by rw [List.replicate_succ, exec, ht, Option.bind_some, hu], hui, hug⟩

theorem exec_until_next (step : σ → α → Option σ) (next : σ → α) (inv goal : σ → Prop) (μ : σ → ℕ)
    (hstep : ∀ s, inv s → ¬ goal s → ∃ t, step s (next s) = some t ∧ inv t ∧ μ t < μ s)
    (s : σ) (hs : inv s) :
    ∃ as t, (∀ a ∈ as, ∃ u, inv u ∧ a = next u) ∧ exec step s as = some t ∧ inv t ∧ goal t := by
  induction hm : μ s using Nat.strongRecOn generalizing s with
  | ind m ih =>
    by_cases hg : goal s
    · exact ⟨[], s, by simp, rfl, hs, hg⟩
    · obtain ⟨t, ht, hi, hlt⟩ := hstep s hs hg
      obtain ⟨as, u, has, hu, hui, hug⟩ := ih (μ t) (hm ▸ hlt) t hi rfl
      refine ⟨next s::as, u, fun a ha => ?_, by rw [exec, ht, Option.bind_some, hu], hui, hug⟩
      rcases List.mem_cons.mp ha with rfl | ha
      · exact ⟨s, hs, rfl⟩
      · exact has a ha

/-- One step keeps the invariant, so a run whose steps meet the condition does. -/
theorem exec_invariant (step : σ → α → Option σ) (ok : σ → α → Prop) (inv : σ → Prop)
    (hstep : ∀ s a t, inv s → ok s a → step s a = some t → inv t)
    (as : List α) (s t : σ) (hs : inv s) (ha : Along step ok s as)
    (he : exec step s as = some t) : inv t := by
  induction as generalizing s with
  | nil =>
    simp only [exec, Option.some.injEq] at he
    exact he ▸ hs
  | cons a as ih =>
    obtain ⟨u, hu, ht⟩ := Option.bind_eq_some_iff.mp he
    exact ih u (hstep s a u hs ha.1 hu) (ha.2 u hu) ht

theorem along_of_forall (step : σ → α → Option σ) (ok : σ → α → Prop)
    (h : ∀ s a, ok s a) (as : List α) (s : σ) : Along step ok s as := by
  induction as generalizing s with
  | nil => trivial
  | cons a as ih => exact ⟨h s a, fun t _ => ih t⟩

theorem along_congr (step : σ → α → Option σ) (ok ok' : σ → α → Prop)
    (h : ∀ s a, ok s a ↔ ok' s a) (as : List α) (s : σ) :
    Along step ok s as ↔ Along step ok' s as := by
  induction as generalizing s with
  | nil => exact Iff.rfl
  | cons a as ih => exact and_congr (h s a) (forall₂_congr (fun t _ => ih t))

/-- A condition on the steps gives another one along the run, under an invariant that
the steps of the run keep. -/
theorem along_imp_of_invariant (step : σ → α → Option σ) (ok ok' : σ → α → Prop) (inv : σ → Prop)
    (hstep : ∀ s a t, inv s → ok s a → step s a = some t → inv t)
    (h : ∀ s a, inv s → ok s a → ok' s a) (as : List α) (s : σ) (hs : inv s)
    (ha : Along step ok s as) : Along step ok' s as := by
  induction as generalizing s with
  | nil => trivial
  | cons a as ih =>
    exact ⟨h s a hs ha.1, fun t ht => ih t (hstep s a t hs ha.1 ht) (ha.2 t ht)⟩

/-- Two conditions that come to the same under an invariant do so along a run. -/
theorem along_iff_of_invariant (step : σ → α → Option σ) (ok ok' : σ → α → Prop) (inv : σ → Prop)
    (hstep : ∀ s a t, inv s → step s a = some t → inv t)
    (h : ∀ s a, inv s → (ok s a ↔ ok' s a)) (as : List α) (s : σ) (hs : inv s) :
    Along step ok s as ↔ Along step ok' s as := by
  constructor
  · exact along_imp_of_invariant step ok ok' inv (fun s a t hi _ => hstep s a t hi)
      (fun s a hi => (h s a hi).mp) as s hs
  · exact along_imp_of_invariant step ok' ok inv (fun s a t hi _ => hstep s a t hi)
      (fun s a hi => (h s a hi).mpr) as s hs

/-- A condition that the invariant implies need not be asked of the run. -/
theorem along_of_invariant (step : σ → α → Option σ) (ok : σ → α → Prop) (inv : σ → Prop)
    (hok : ∀ s a, inv s → ok s a)
    (hstep : ∀ s a t, inv s → step s a = some t → inv t)
    (as : List α) (s : σ) (hs : inv s) : Along step ok s as := by
  induction as generalizing s with
  | nil => trivial
  | cons a as ih => exact ⟨hok s a hs, fun t ht => ih t (hstep s a t hs ht)⟩

end Lib.Schedule
