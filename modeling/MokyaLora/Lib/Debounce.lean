import Mathlib.Tactic.Common

/-!
# Debouncing

The committed level of a signal changes when the last `n` readings all differ from it.
Readings stand in a list, the newest first.
-/

set_option autoImplicit false

namespace Lib.Debounce

variable (n : ℕ)

def debounced : List Bool → Bool
  | [] => false
  | b::bs =>
    if (b::bs).take n = List.replicate n (!debounced bs) then !debounced bs else debounced bs

def streak (d : Bool) (bs : List Bool) : ℕ := (bs.takeWhile (· != d)).length

def upFor : List Bool → ℕ
  | [] => 0
  | b::bs => if debounced n (b::bs) then upFor bs+1 else 0

/-- The readings, each with the level that it found. -/
def record : List Bool → List (Bool × Bool)
  | [] => []
  | b::bs => (debounced n bs, b)::record bs

theorem streak_cons (d b : Bool) (bs : List Bool) :
    streak d (b::bs) = if b = d then 0 else streak d bs+1 := by
  by_cases h : b = d
  · simp [streak, h]
  · simp [streak, h]

theorem take_replicate_iff (d : Bool) (bs : List Bool) :
    bs.take n = List.replicate n (!d) ↔ n ≤ streak d bs := by
  induction n generalizing bs with
  | zero => simp
  | succ n ih =>
    cases bs with
    | nil => simp [streak, List.replicate_succ]
    | cons b bs =>
      rw [List.take_succ_cons, List.replicate_succ, List.cons.injEq, ih, streak_cons]
      by_cases h : b = d
      · simp [h]
      · have hb : b = !d := by
          cases b <;> cases d <;> simp_all
        rw [if_neg h, Nat.add_le_add_iff_right]
        exact and_iff_right hb

theorem take_cons_iff (d b : Bool) (bs : List Bool) (hn : 0 < n) :
    (b::bs).take n = List.replicate n (!d) ↔ b ≠ d ∧ n ≤ streak d bs+1 := by
  rw [take_replicate_iff, streak_cons]
  by_cases h : b = d
  · rw [if_pos h]
    exact iff_of_false (Nat.not_le.mpr hn) (fun hand => hand.1 h)
  · rw [if_neg h]
    exact (and_iff_right h).symm

theorem debounced_cons (b : Bool) (bs : List Bool) (hn : 0 < n) : debounced n (b::bs) =
    if b ≠ debounced n bs ∧ n ≤ streak (debounced n bs) bs+1 then b else debounced n bs := by
  rw [debounced]
  by_cases h : b ≠ debounced n bs ∧ n ≤ streak (debounced n bs) bs+1
  · rw [if_pos ((take_cons_iff n _ b bs hn).mpr h), if_pos h]
    exact (Bool.eq_not_of_ne h.1).symm
  · rw [if_neg (fun htake => h ((take_cons_iff n _ b bs hn).mp htake)), if_neg h]

theorem streak_debounced_cons (b : Bool) (bs : List Bool) (hn : 0 < n) :
    streak (debounced n (b::bs)) (b::bs) =
      if b ≠ debounced n bs ∧ streak (debounced n bs) bs+1 < n then
        streak (debounced n bs) bs+1 else 0 := by
  rw [debounced_cons n b bs hn, streak_cons]
  by_cases h : b = debounced n bs
  · simp [h]
  · by_cases hs : n ≤ streak (debounced n bs) bs+1
    · simp [h, hs]
    · simp [h, hs, Nat.not_le.mp hs]

theorem streak_lt (bs : List Bool) (hn : 0 < n) : streak (debounced n bs) bs < n := by
  cases bs with
  | nil => exact hn
  | cons b bs =>
    rw [streak_debounced_cons n b bs hn]
    split
    · exact And.right ‹_›
    · exact hn

theorem debounced_of_ne (b : Bool) (bs : List Bool) (hn : 0 < n) (h : b ≠ debounced n (b::bs)) :
    debounced n bs = debounced n (b::bs) := by
  rw [debounced_cons n b bs hn] at h ⊢
  split at h
  · exact absurd rfl h
  · rw [if_neg ‹_›]

theorem record_take (k : ℕ) (bs : List Bool) (hn : 0 < n)
    (h : bs.take k = List.replicate k (!debounced n bs)) :
    (record n bs).take k = List.replicate k (debounced n bs, !debounced n bs) := by
  induction k generalizing bs with
  | zero => rfl
  | succ k ih =>
    cases bs with
    | nil => simp [List.replicate_succ] at h
    | cons b bs =>
      rw [List.take_succ_cons, List.replicate_succ, List.cons.injEq] at h
      have hlevel := debounced_of_ne n b bs hn (Bool.eq_not.mp h.1)
      rw [← hlevel] at h ⊢
      rw [record, List.take_succ_cons, List.replicate_succ, h.1, ih bs h.2]

/-- The level changes only when `n` readings in a row found it and differed from it. -/
theorem change_record (b : Bool) (bs : List Bool) (hn : 0 < n)
    (h : debounced n (b::bs) ≠ debounced n bs) :
    (record n (b::bs)).take n = List.replicate n (debounced n bs, !debounced n bs) := by
  obtain ⟨k, rfl⟩ : ∃ k, n = k+1 := ⟨n-1, by omega⟩
  rw [debounced] at h
  split at h
  · rename_i htake
    rw [List.take_succ_cons, List.replicate_succ, List.cons.injEq] at htake
    rw [record, List.take_succ_cons, List.replicate_succ, htake.1,
      record_take (k+1) k bs hn htake.2]
  · exact absurd rfl h

theorem up_for_pos (bs : List Bool) : 0 < upFor n bs ↔ debounced n bs = true := by
  cases bs with
  | nil => simp [upFor, debounced]
  | cons b bs =>
    rw [upFor]
    by_cases h : debounced n (b::bs) = true
    · simp [h]
    · simp [h]

end Lib.Debounce
