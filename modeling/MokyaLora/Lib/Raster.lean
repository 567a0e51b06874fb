import MokyaLora.Lib.Bits
import Mathlib.Data.List.ProdSigma
import Mathlib.Data.List.Nodup

/-!
# Rows of pixels packed into bytes

A row of pixels takes a whole number of bytes, eight pixels to the byte and the leftmost in
the most significant bit.
-/

set_option autoImplicit false

namespace Lib.Raster
open Lib.Bits

def mask (x : ℕ) : UInt8 := 0x80 >>> UInt8.ofNat (x % 8)

/-- The cells of a box, row by row: the row first. -/
def cells (w h : ℕ) : List (ℕ × ℕ) := List.range h ×ˢ List.range w

theorem mem_cells (w h : ℕ) (p : ℕ × ℕ) : p ∈ cells w h ↔ p.1 < h ∧ p.2 < w := by
  cases p with
  | mk y x => rw [cells, List.mem_product, List.mem_range, List.mem_range]

theorem cells_nodup (w h : ℕ) : (cells w h).Nodup := List.Nodup.product List.nodup_range List.nodup_range

theorem mask_bit (x : ℕ) : (mask x).toBitVec = bit (7-x % 8) := by
  have h : ∀ j < 8, ((0x80 : UInt8) >>> UInt8.ofNat j).toBitVec = bit (7-j) := by decide
  exact h (x % 8) (Nat.mod_lt x (by decide))

theorem test_mask (a : UInt8) (x : ℕ) :
    a &&& mask x ≠ 0 ↔ a.toBitVec.getLsbD (7-x % 8) = true := by
  rw [← and_bit_ne_zero a.toBitVec (7-x % 8) (by omega), ← mask_bit, ← UInt8.toBitVec_and]
  exact not_congr UInt8.toBitVec_inj.symm

theorem test_set (a : UInt8) (x y : ℕ) :
    (a ||| mask x) &&& mask y ≠ 0 ↔ y % 8 = x % 8 ∨ a &&& mask y ≠ 0 := by
  have hbit : 7-y % 8 = 7-x % 8 ↔ y % 8 = x % 8 := by omega
  rw [test_mask, test_mask, UInt8.toBitVec_or, mask_bit, set_get _ _ _ (by omega), Bool.or_eq_true,
    decide_eq_true_eq, hbit]

theorem row_injective {n y y' c c' : ℕ} (hc : c < n) (hc' : c' < n) (h : y*n+c = y'*n+c') :
    y = y' ∧ c = c' := by
  have hdiv : (y*n+c)/n = (y'*n+c')/n := by rw [h]
  rw [Nat.add_comm, Nat.add_comm (y'*n), Nat.add_mul_div_right _ _ (by omega),
    Nat.add_mul_div_right _ _ (by omega), Nat.div_eq_of_lt hc, Nat.div_eq_of_lt hc', Nat.zero_add,
    Nat.zero_add] at hdiv
  exact ⟨hdiv, by rw [hdiv] at h; omega⟩

end Lib.Raster
