import Mathlib.Tactic.Common

/-!
# Sets of small numbers as bits of a word
-/

set_option autoImplicit false

namespace Lib.Bits

variable {w : ℕ}

def bit (j : ℕ) : BitVec w := 1#w <<< j

theorem bit_get (j k : ℕ) (hk : k < w) : (bit j : BitVec w).getLsbD k = decide (k = j) := by
  simp only [bit, BitVec.getLsbD_shiftLeft, BitVec.getLsbD_one, hk, decide_true, Bool.true_and]
  by_cases h : k = j
  · simp [h]
    omega
  · simp [h]
    omega

theorem set_get (x : BitVec w) (j k : ℕ) (hk : k < w) :
    (x ||| bit j).getLsbD k = (decide (k = j) || x.getLsbD k) := by
  rw [BitVec.getLsbD_or, bit_get j k hk, Bool.or_comm]

theorem clear_get (x : BitVec w) (j k : ℕ) (hk : k < w) :
    (x &&& ~~~bit j).getLsbD k = (!decide (k = j) && x.getLsbD k) := by
  rw [BitVec.getLsbD_and, BitVec.getLsbD_not, bit_get j k hk, Bool.and_comm, decide_eq_true hk,
    Bool.true_and]

def put (x : BitVec w) (j : ℕ) (b : Bool) : BitVec w := if b then x ||| bit j else x &&& ~~~bit j

theorem put_get (x : BitVec w) (j k : ℕ) (b : Bool) (hk : k < w) :
    (put x j b).getLsbD k = if k = j then b else x.getLsbD k := by
  cases b with
  | true =>
    rw [put, if_pos rfl, set_get x j k hk]
    by_cases h : k = j <;> simp [h]
  | false =>
    rw [put, if_neg Bool.false_ne_true, clear_get x j k hk]
    by_cases h : k = j <;> simp [h]

theorem and_bit_ne_zero (x : BitVec w) (j : ℕ) (hj : j < w) :
    x &&& bit j ≠ 0#w ↔ x.getLsbD j = true := by
  constructor
  · intro h
    by_contra hfalse
    apply h
    apply BitVec.eq_of_getLsbD_eq
    intro k hk
    rw [BitVec.getLsbD_and, bit_get j k hk, BitVec.getLsbD_zero]
    by_cases hkj : k = j
    · rw [hkj, Bool.eq_false_iff.mpr hfalse, Bool.false_and]
    · rw [decide_eq_false hkj, Bool.and_false]
  · intro h hzero
    have hbit := congrArg (fun y : BitVec w => y.getLsbD j) hzero
    simp only [BitVec.getLsbD_and, bit_get j j hj, h, BitVec.getLsbD_zero] at hbit
    cases hbit

end Lib.Bits
