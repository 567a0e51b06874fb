import MokyaLora.Lib.Schedule
import Mathlib.Data.Option.Basic
import Mathlib.Logic.Function.Basic

/-!
# A lock and the resource behind it

Any number of tasks take a lock, work on a shared resource step by step, and give the lock
back. Nothing in a step asks who holds the lock. An invariant of the resource that every
section establishes before it leaves holds whenever the lock is free, and the assertion of
a section holds at each of its steps, whatever the other tasks try meanwhile.
-/

set_option autoImplicit false

namespace Lib.Monitor
open Lib.Schedule

/-- What tasks do under the lock: `α` are the arguments of an entry, `ι` the inputs of a
step. -/
structure Section (ρ ℓ α ι : Type*) where
  enter : α → ℓ
  work : ℓ → ρ → ι → Option (ℓ × ρ)
  leaves : ℓ → Bool

structure State (τ ρ ℓ : Type*) where
  holder : Option τ
  resource : ρ
  locals : τ → Option ℓ

inductive Act (τ α ι : Type*) where
  | enter (t : τ) (a : α)
  | work (t : τ) (i : ι)
  | leave (t : τ)

variable {τ ρ ℓ α ι : Type*}

def free (r : ρ) : State τ ρ ℓ := ⟨none, r, fun _ => none⟩

/-- The holder and only the holder is in its section. -/
structure Inv (free : ρ → Prop) (during : ℓ → ρ → Prop) (s : State τ ρ ℓ) : Prop where
  inside : ∀ t, s.locals t ≠ none ↔ s.holder = some t
  resource : s.holder = none → free s.resource
  during : ∀ t l, s.locals t = some l → during l s.resource

/-- The proof rule: what a section may assume, keep and leave behind. -/
structure Rule (S : Section ρ ℓ α ι) (free : ρ → Prop) (during : ℓ → ρ → Prop) : Prop where
  enter : ∀ a r, free r → during (S.enter a) r
  work : ∀ l r i l' r', during l r → S.work l r i = some (l', r') → during l' r'
  leave : ∀ l r, during l r → S.leaves l = true → free r

theorem inv_free {free : ρ → Prop} {during : ℓ → ρ → Prop} {r : ρ} (h : free r) :
    Inv free during (Monitor.free r : State τ ρ ℓ) where
  inside := fun _ => ⟨fun hne => (hne rfl).elim, nofun⟩
  resource := fun _ => h
  during := nofun

section Sections
variable {free : ρ → Prop} {during : ℓ → ρ → Prop} {s : State τ ρ ℓ} (hi : Inv free during s)
include hi

theorem Inv.alone (t v : τ) (ht : s.locals t ≠ none) (hv : s.locals v ≠ none) : t = v :=
  Option.some.inj (((hi.inside t).mp ht).symm.trans ((hi.inside v).mp hv))

theorem Inv.outside (hfree : s.holder = none) (v : τ) : s.locals v = none := by
  by_contra hne
  rw [(hi.inside v).mp hne] at hfree
  cases hfree

theorem Inv.others {t : τ} (ht : s.locals t ≠ none) (v : τ) (hvt : v ≠ t) : s.locals v = none := by
  by_contra hne
  exact hvt (hi.alone v t hne ht)

/-- What is true of a free resource and in every section is always true. -/
theorem Inv.always {P : ρ → Prop} (hfree : ∀ r, free r → P r) (hduring : ∀ l r, during l r → P r) :
    P s.resource := by
  cases hh : s.holder with
  | none => exact hfree _ (hi.resource hh)
  | some t =>
    obtain ⟨l, hl⟩ := Option.ne_none_iff_exists'.mp ((hi.inside t).mpr hh)
    exact hduring l _ (hi.during t l hl)

end Sections

section Steps
variable [DecidableEq τ]

/-- The lock is granted when nobody has it; a wait that runs out of time changes nothing. -/
def step (S : Section ρ ℓ α ι) (s : State τ ρ ℓ) : Act τ α ι → Option (State τ ρ ℓ)
  | .enter t a =>
    if s.holder = none ∧ s.locals t = none then
      some { s with holder := some t, locals := Function.update s.locals t (some (S.enter a)) }
    else none
  | .work t i =>
    (s.locals t).bind (fun l => (S.work l s.resource i).map (fun r =>
      { s with resource := r.2, locals := Function.update s.locals t (some r.1) }))
  | .leave t =>
    (s.locals t).bind (fun l => if S.leaves l then
      some { s with holder := none, locals := Function.update s.locals t none } else none)

theorem inv_held {free : ρ → Prop} {during : ℓ → ρ → Prop} {s : State τ ρ ℓ} (t : τ) (l : ℓ) (r : ρ)
    (hothers : ∀ v, v ≠ t → s.locals v = none) (hl : during l r) :
    Inv free during (⟨some t, r, Function.update s.locals t (some l)⟩ : State τ ρ ℓ) where
  inside v := by
    show Function.update s.locals t (some l) v ≠ none ↔ some t = some v
    by_cases hvt : v = t
    · subst hvt
      rw [Function.update_self]
      exact ⟨fun _ => rfl, fun _ => nofun⟩
    · rw [Function.update_of_ne hvt, hothers v hvt, Option.some.injEq]
      exact ⟨fun h => (h rfl).elim, fun h => (hvt h.symm).elim⟩
  resource := nofun
  during v k hk := by
    change Function.update s.locals t (some l) v = some k at hk
    by_cases hvt : v = t
    · subst hvt
      rw [Function.update_self, Option.some.injEq] at hk
      exact hk ▸ hl
    · rw [Function.update_of_ne hvt, hothers v hvt] at hk
      cases hk

theorem inv_left {free : ρ → Prop} {during : ℓ → ρ → Prop} {s : State τ ρ ℓ} (t : τ) (r : ρ)
    (hothers : ∀ v, v ≠ t → s.locals v = none) (hr : free r) :
    Inv free during (⟨none, r, Function.update s.locals t none⟩ : State τ ρ ℓ) := by
  have hnone : ∀ v, Function.update s.locals t none v = none := by
    intro v
    by_cases hvt : v = t
    · rw [hvt, Function.update_self]
    · rw [Function.update_of_ne hvt, hothers v hvt]
  refine ⟨fun v => ⟨fun hv => (hv (hnone v)).elim, nofun⟩, fun _ => hr, fun v k hk => ?_⟩
  change Function.update s.locals t none v = some k at hk
  rw [hnone v] at hk
  cases hk

theorem inv_step {S : Section ρ ℓ α ι} {free : ρ → Prop} {during : ℓ → ρ → Prop}
    (hr : Rule S free during) {s u : State τ ρ ℓ} (a : Act τ α ι) (hi : Inv free during s)
    (hs : step S s a = some u) : Inv free during u := by
  cases a with
  | enter t a =>
    rw [step] at hs
    split at hs <;> cases hs
    next hfree =>
    exact inv_held t (S.enter a) s.resource (fun v _ => hi.outside hfree.1 v)
      (hr.enter a s.resource (hi.resource hfree.1))
  | work t i =>
    obtain ⟨l, hl, hs⟩ := Option.bind_eq_some_iff.mp hs
    obtain ⟨⟨l', r'⟩, hwork, rfl⟩ := Option.map_eq_some_iff.mp hs
    have ht : s.locals t ≠ none := by rw [hl]; nofun
    rw [(hi.inside t).mp ht]
    exact inv_held t l' r' (hi.others ht) (hr.work l s.resource i l' r' (hi.during t l hl) hwork)
  | leave t =>
    obtain ⟨l, hl, hs⟩ := Option.bind_eq_some_iff.mp hs
    split at hs <;> cases hs
    next hleaves =>
    have ht : s.locals t ≠ none := by rw [hl]; nofun
    exact inv_left t s.resource (hi.others ht) (hr.leave l _ (hi.during t l hl) hleaves)

theorem inv_exec {S : Section ρ ℓ α ι} {free : ρ → Prop} {during : ℓ → ρ → Prop}
    (hr : Rule S free during) (acts : List (Act τ α ι)) (s u : State τ ρ ℓ)
    (hi : Inv free during s) (he : exec (step S) s acts = some u) : Inv free during u :=
  exec_invariant (step S) (fun _ _ => True) _ (fun _ a _ hi _ hs => inv_step hr a hi hs) acts s u
    hi (along_of_forall _ _ (fun _ _ => trivial) acts s) he

/-- A section whose steps bring down a measure until it may leave gets there on its own. -/
theorem work_until {S : Section ρ ℓ α ι} {free : ρ → Prop} {during : ℓ → ρ → Prop}
    (hr : Rule S free during) (t : τ) (i : ι) (goal : ℓ → Prop) (μ : ℓ → ℕ)
    (hwork : ∀ l r, during l r → ¬ goal l → ∃ l' r', S.work l r i = some (l', r') ∧ μ l' < μ l)
    (s : State τ ρ ℓ) (hi : Inv free during s) (ht : s.locals t ≠ none) :
    ∃ k u l, exec (step S) s (List.replicate k (.work t i)) = some u ∧ Inv free during u ∧
      u.locals t = some l ∧ goal l := by
  have hrun := exec_until (step S) (.work t i)
    (fun u => Inv free during u ∧ u.locals t ≠ none)
    (fun u => ∃ l, u.locals t = some l ∧ goal l)
    (fun u => ((u.locals t).map μ).getD 0) ?_ s ⟨hi, ht⟩
  · obtain ⟨k, u, hu, ⟨hui, -⟩, l, hl, hg⟩ := hrun
    exact ⟨k, u, l, hu, hui, hl, hg⟩
  · rintro u ⟨hui, hu⟩ hgoal
    obtain ⟨l, hl⟩ := Option.ne_none_iff_exists'.mp hu
    obtain ⟨l', r', hstep, hlt⟩ := hwork l u.resource (hui.during t l hl)
      (fun hg => hgoal ⟨l, hl, hg⟩)
    have hnext : step S u (.work t i) = some { u with
        resource := r', locals := Function.update u.locals t (some l') } := by
      rw [step, hl, Option.bind_some, hstep, Option.map_some]
    refine ⟨_, hnext, ⟨inv_step hr _ hui hnext, ?_⟩, ?_⟩
    · show Function.update u.locals t (some l') t ≠ none
      rw [Function.update_self]
      nofun
    · show ((Function.update u.locals t (some l') t).map μ).getD 0 < ((u.locals t).map μ).getD 0
      rw [Function.update_self, hl]
      exact hlt

end Steps

end Lib.Monitor
