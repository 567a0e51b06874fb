import Mathlib.Data.List.Rotate
import Mathlib.Data.List.GetD

/-!
# Pages

A list is shown page by page. Turning the page as often as there are pages shows every
element once, wherever the turning begins.
-/

set_option autoImplicit false

namespace Lib.Pages

variable {α : Type*}

def count (size : ℕ) (xs : List α) : ℕ := (xs.length+size-1)/size

def page (size : ℕ) (xs : List α) (p : ℕ) : List α := (xs.drop (p*size)).take size

theorem page_getElem? (size : ℕ) (xs : List α) (p i : ℕ) (hi : i < size) :
    (page size xs p)[i]? = xs[p*size+i]? := by
  rw [page, List.getElem?_take_of_lt hi, List.getElem?_drop]

theorem page_length (size : ℕ) (xs : List α) (p : ℕ) :
    (page size xs p).length = min size (xs.length-p*size) := by
  rw [page, List.length_take, List.length_drop]

theorem take_pages (size : ℕ) (xs : List α) (n : ℕ) :
    (List.range n).flatMap (page size xs) = xs.take (n*size) := by
  induction n with
  | zero => rw [Nat.zero_mul, List.take_zero]; rfl
  | succ n ih =>
    rw [List.range_succ, List.flatMap_append, ih, List.flatMap_singleton, Nat.succ_mul,
      List.take_add]
    rfl

section Size

variable {size : ℕ} (hsize : 0 < size) (xs : List α)
include hsize

theorem le_count_mul : xs.length ≤ count size xs*size := by
  have hmod := Nat.mod_lt (xs.length+size-1) hsize
  have hdiv := Nat.div_add_mod (xs.length+size-1) size
  rw [count, Nat.mul_comm]
  omega

theorem lt_count_iff (p : ℕ) : p < count size xs ↔ p*size < xs.length := by
  rw [count, Nat.lt_iff_add_one_le, Nat.le_div_iff_mul_le hsize, Nat.succ_mul]
  omega

theorem pages_flatten : (List.range (count size xs)).flatMap (page size xs) = xs := by
  rw [take_pages, List.take_of_length_le (le_count_mul hsize xs)]

theorem page_of_lt (i : ℕ) (hi : i < xs.length) : i/size < count size xs := by
  rw [lt_count_iff hsize]
  exact Nat.lt_of_le_of_lt (Nat.div_mul_le_self i size) hi

theorem page_elem (i : ℕ) : (page size xs (i/size))[i%size]? = xs[i]? := by
  rw [page_getElem? size xs _ _ (Nat.mod_lt i hsize), Nat.div_add_mod']

/-- The first element of the next page, or of the first page behind the last one. -/
theorem turn_start (p : ℕ) (hp : p < count size xs) :
    (if xs.length ≤ (p+1)*size then 0 else (p+1)*size) = (p+1)%count size xs*size := by
  have hnext := lt_count_iff hsize xs (p+1)
  by_cases h : xs.length ≤ (p+1)*size
  · have hlast : p+1 = count size xs := by omega
    rw [if_pos h, hlast, Nat.mod_self, Nat.zero_mul]
  · rw [if_neg h, Nat.mod_eq_of_lt (hnext.mpr (by omega))]

end Size

theorem turned_range (n p : ℕ) : ((List.range n).map (fun k => (p+k)%n)).Perm (List.range n) := by
  have hrotate : (List.range n).map (fun k => (p+k)%n) = (List.range n).rotate p := by
    apply List.ext_getElem
    · rw [List.length_map, List.length_rotate]
    · intro k _ _
      rw [List.getElem_map, List.getElem_rotate, List.getElem_range, List.getElem_range,
        List.length_range, Nat.add_comm]
  rw [hrotate]
  exact List.rotate_perm _ _

theorem turned_pages {size : ℕ} (hsize : 0 < size) (xs : List α) (p : ℕ) :
    ((List.range (count size xs)).flatMap
      (fun k => page size xs ((p+k)%count size xs))).Perm xs := by
  have h := (turned_range (count size xs) p).flatMap_right (page size xs)
  rwa [List.flatMap_map, pages_flatten hsize] at h

end Lib.Pages
