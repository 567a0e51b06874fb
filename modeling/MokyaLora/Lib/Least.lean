import Mathlib.Order.Lattice
import Mathlib.Data.Nat.Notation

/-!
# The first least element

A scan over the numbers below a bound keeps the first wanted one with the least key.
-/

set_option autoImplicit false

namespace Lib.Least

variable {κ : Type*} [LinearOrder κ] (wanted : ℕ → Prop) [DecidablePred wanted] (key : ℕ → κ)

def scan : ℕ → Option ℕ
  | 0 => none
  | n+1 =>
    match scan n with
    | none => if wanted n then some n else none
    | some b => if wanted n ∧ key n < key b then some n else some b

structure First (n i : ℕ) : Prop where
  lt : i < n
  holds : wanted i
  le : ∀ j < n, wanted j → key i ≤ key j
  before : ∀ j < i, wanted j → key i < key j

variable {wanted key}

omit [DecidablePred wanted] in
theorem First.unique {n i j : ℕ} (hi : First wanted key n i)
    (hj : First wanted key n j) : i = j := by
  rcases Nat.lt_trichotomy i j with hlt | heq | hgt
  · exact absurd (hj.before i hlt hi.holds) (not_lt_of_ge (hi.le j hj.lt hj.holds))
  · exact heq
  · exact absurd (hi.before j hgt hj.holds) (not_lt_of_ge (hj.le i hi.lt hi.holds))

theorem scan_none {n : ℕ} (h : scan wanted key n = none) (j : ℕ) (hj : j < n) : ¬ wanted j := by
  induction n with
  | zero => exact absurd hj (Nat.not_lt_zero j)
  | succ n ih =>
    rw [scan] at h
    cases hs : scan wanted key n with
    | some b =>
      rw [hs] at h
      dsimp only at h
      split at h <;> cases h
    | none =>
      rw [hs] at h
      dsimp only at h
      rcases Nat.lt_succ_iff_lt_or_eq.mp hj with hlt | rfl
      · exact ih hs hlt
      · intro hw
        rw [if_pos hw] at h
        cases h

theorem scan_some {n i : ℕ} (h : scan wanted key n = some i) : First wanted key n i := by
  induction n generalizing i with
  | zero => cases h
  | succ n ih =>
    rw [scan] at h
    cases hs : scan wanted key n with
    | none =>
      have hnone := scan_none hs
      rw [hs] at h
      dsimp only at h
      split at h
      · rename_i hw
        cases h
        refine ⟨Nat.lt_succ_self n, hw, fun j hj hwj => ?_, fun j hj hwj => absurd hwj (hnone j hj)⟩
        rcases Nat.lt_succ_iff_lt_or_eq.mp hj with hlt | rfl
        · exact absurd hwj (hnone j hlt)
        · exact le_refl _
      · cases h
    | some b =>
      have hb := ih hs
      rw [hs] at h
      dsimp only at h
      split at h
      · rename_i hw
        cases h
        refine ⟨Nat.lt_succ_self n, hw.1, fun j hj hwj => ?_, fun j hj hwj =>
          lt_of_lt_of_le hw.2 (hb.le j hj hwj)⟩
        rcases Nat.lt_succ_iff_lt_or_eq.mp hj with hlt | rfl
        · exact le_of_lt (lt_of_lt_of_le hw.2 (hb.le j hlt hwj))
        · exact le_refl _
      · rename_i hw
        cases h
        refine ⟨Nat.lt_succ_of_lt hb.lt, hb.holds, fun j hj hwj => ?_, hb.before⟩
        rcases Nat.lt_succ_iff_lt_or_eq.mp hj with hlt | rfl
        · exact hb.le j hlt hwj
        · exact le_of_not_gt (fun hlt => hw ⟨hwj, hlt⟩)

theorem scan_iff (n i : ℕ) : scan wanted key n = some i ↔ First wanted key n i := by
  refine ⟨scan_some, fun h => ?_⟩
  cases hs : scan wanted key n with
  | none => exact absurd h.holds (scan_none hs i h.lt)
  | some b => rw [(scan_some hs).unique h]

end Lib.Least
