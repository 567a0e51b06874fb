import Mathlib.Tactic.Common

/-!
# Free-running 32-bit counters

A counter that is only incremented shows the residue of the number of its
increments. Differences of two counters that are less than one turn apart, and
remainders by a divisor of the turn, are those of the unbounded numbers.
-/

set_option autoImplicit false

namespace Lib.Counter

theorem ofNat_succ (k : ℕ) : UInt32.ofNat k+1 = UInt32.ofNat (k+1) := by
  apply UInt32.toNat_inj.mp
  simp [UInt32.toNat_add]

theorem toNat_sub_ofNat (k j : ℕ) (hj : j ≤ k) (hk : k < j+4294967296) :
    (UInt32.ofNat k-UInt32.ofNat j).toNat = k-j := by
  simp only [UInt32.toNat_sub, UInt32.toNat_ofNat']
  omega

theorem ofNat_eq_iff (k j : ℕ) (hj : j ≤ k) (hk : k < j+4294967296) :
    UInt32.ofNat k = UInt32.ofNat j ↔ k = j := by
  constructor
  · intro h
    have hs := toNat_sub_ofNat k j hj hk
    rw [h] at hs
    simp at hs
    omega
  · rintro rfl
    rfl

theorem toNat_ofNat_mod (k n : ℕ) (hn : n ∣ 4294967296) :
    (UInt32.ofNat k).toNat % n = k % n := by
  simp only [UInt32.toNat_ofNat']
  exact Nat.mod_mod_of_dvd k hn

theorem add_sub_add (a b c : UInt32) : (a+c)-(b+c) = a-b := by
  apply UInt32.toNat_inj.mp
  have ha := a.toNat_lt
  have hb := b.toNat_lt
  have hc := c.toNat_lt
  simp only [UInt32.toNat_sub, UInt32.toNat_add]
  omega

theorem mod_ne_of_window (k j n : ℕ) (hj : j < k) (hk : k < j+n) : k % n ≠ j % n := by
  intro h
  have hd : n ∣ k-j := Nat.dvd_of_mod_eq_zero (Nat.sub_mod_eq_zero_of_mod_eq h)
  have := Nat.le_of_dvd (by omega) hd
  omega

end Lib.Counter
