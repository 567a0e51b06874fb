import MokyaLora.Lib.Fields
import Mathlib.Logic.Function.Basic

/-!
# Byte buffers in memory

A buffer is its contents at every offset. The bytes in use are the first few of
them; storing behind them appends, and moving the rest of the buffer down drops
from the front.
-/

set_option autoImplicit false

namespace Lib.Memory
open Lib.Fields

abbrev Buffer := ℕ → UInt8

def zeroed : Buffer := fun _ => 0

def store (b : Buffer) (i : ℕ) (v : UInt8) : Buffer := Function.update b i v

/-- `memmove(b, b + k, n)`. -/
def moveDown (b : Buffer) (k n : ℕ) : Buffer := fun i => if i < n then b (i+k) else b i

def move (b : Buffer) (dst src n : ℕ) : Buffer :=
  fun i => if dst ≤ i ∧ i < dst+n then b (src+(i-dst)) else b i

def copyIn (b : Buffer) (dst : ℕ) (l : Bytes) : Buffer :=
  fun i => if dst ≤ i ∧ i < dst+l.length then l.getD (i-dst) 0 else b i

def bytes (b : Buffer) (n : ℕ) : Bytes := (List.range n).map b

@[simp] theorem bytes_length (b : Buffer) (n : ℕ) : (bytes b n).length = n := by
  simp [bytes]

@[simp] theorem bytes_zero (b : Buffer) : bytes b 0 = [] := rfl

theorem bytes_getElem (b : Buffer) (n i : ℕ) (h : i < (bytes b n).length) :
    (bytes b n)[i] = b i := by
  simp [bytes]

theorem mem_bytes (b : Buffer) (n : ℕ) (v : UInt8) : v ∈ bytes b n ↔ ∃ i < n, b i = v := by
  simp [bytes]

theorem store_self (b : Buffer) (i : ℕ) (v : UInt8) : store b i v i = v := by
  simp [store]

theorem store_of_ne (b : Buffer) (i j : ℕ) (v : UInt8) (h : j ≠ i) : store b i v j = b j := by
  simp [store, h]

theorem bytes_store (b : Buffer) (n i : ℕ) (v : UInt8) (h : n ≤ i) :
    bytes (store b i v) n = bytes b n := by
  apply List.ext_getElem
  · simp
  · intro j hj _
    simp only [bytes_length] at hj
    simp only [bytes_getElem]
    exact store_of_ne b i j v (by omega)

theorem bytes_succ (b : Buffer) (n : ℕ) : bytes b (n+1) = bytes b n++[b n] := by
  simp [bytes, List.range_succ]

theorem bytes_push (b : Buffer) (n : ℕ) (v : UInt8) :
    bytes (store b n v) (n+1) = bytes b n++[v] := by
  rw [bytes_succ, bytes_store b n n v le_rfl, store_self]

theorem bytes_moveDown (b : Buffer) (k n m : ℕ) (h : n-k ≤ m) :
    bytes (moveDown b k m) (n-k) = (bytes b n).drop k := by
  apply List.ext_getElem
  · simp
  · intro i hi _
    simp only [bytes_length] at hi
    simp [bytes, moveDown, show i < m by omega, Nat.add_comm]

def segment (b : Buffer) (off n : ℕ) : Bytes := (List.range n).map (fun i => b (off+i))

@[simp] theorem segment_length (b : Buffer) (off n : ℕ) : (segment b off n).length = n := by
  simp [segment]

theorem segment_get (b : Buffer) (off n i : ℕ) (h : i < n) :
    (segment b off n)[i]? = some (b (off+i)) := by
  rw [segment, List.getElem?_map, List.getElem?_range h, Option.map_some]

theorem segment_eq (b b' : Buffer) (off off' n : ℕ) (h : ∀ i < n, b (off+i) = b' (off'+i)) :
    segment b off n = segment b' off' n :=
  List.map_congr_left (fun i hi => h i (List.mem_range.mp hi))

theorem segment_add (b : Buffer) (off m n : ℕ) :
    segment b off (m+n) = segment b off m++segment b (off+m) n := by
  rw [segment, List.range_add, List.map_append, List.map_map, segment, segment]
  congr 1
  apply List.map_congr_left
  intro i _
  rw [Function.comp_apply, Nat.add_assoc]

theorem segment_take (b : Buffer) (off n m : ℕ) (h : m ≤ n) :
    (segment b off n).take m = segment b off m := by
  obtain ⟨k, rfl⟩ := Nat.exists_eq_add_of_le h
  rw [segment_add, List.take_left' (segment_length b off m)]

theorem segment_drop (b : Buffer) (off n m : ℕ) (h : m ≤ n) :
    (segment b off n).drop m = segment b (off+m) (n-m) := by
  obtain ⟨k, rfl⟩ := Nat.exists_eq_add_of_le h
  rw [segment_add, List.drop_left' (segment_length b off m), Nat.add_sub_cancel_left]

/-- What was moved stands where it was moved to. -/
theorem segment_move (b : Buffer) (dst src n : ℕ) :
    segment (move b dst src n) dst n = segment b src n := by
  apply segment_eq
  intro i hi
  rw [move, if_pos (by omega), Nat.add_sub_cancel_left]

theorem segment_move_of_le (b : Buffer) (dst src n off m : ℕ) (h : off+m ≤ dst) :
    segment (move b dst src n) off m = segment b off m := by
  apply segment_eq
  intro i hi
  rw [move, if_neg (by omega)]

theorem segment_copyIn (b : Buffer) (dst : ℕ) (l : Bytes) :
    segment (copyIn b dst l) dst l.length = l := by
  apply List.ext_getElem?
  intro i
  by_cases hi : i < l.length
  · rw [segment_get _ _ _ _ hi, copyIn, if_pos (by omega), Nat.add_sub_cancel_left,
      List.getD_eq_getElem?_getD, List.getElem?_eq_getElem hi, Option.getD_some]
  · rw [List.getElem?_eq_none (by simpa using hi), List.getElem?_eq_none (by simpa using hi)]

theorem segment_copyIn_take (b : Buffer) (l : Bytes) (n : ℕ) (h : n ≤ l.length) :
    segment (copyIn b 0 (l.take n)) 0 n = l.take n := by
  have hcopy := segment_copyIn b 0 (l.take n)
  rwa [List.length_take, Nat.min_eq_left h] at hcopy

theorem segment_copyIn_of_disjoint (b : Buffer) (dst : ℕ) (l : Bytes) (off m : ℕ)
    (h : off+m ≤ dst ∨ dst+l.length ≤ off) :
    segment (copyIn b dst l) off m = segment b off m := by
  apply segment_eq
  intro i hi
  rw [copyIn, if_neg (by omega)]

theorem segment_store (b : Buffer) (i : ℕ) (v : UInt8) (off m : ℕ) (h : off+m ≤ i) :
    segment (store b i v) off m = segment b off m := by
  apply segment_eq
  intro j hj
  exact store_of_ne b i (off+j) v (by omega)

theorem segment_insert (b : Buffer) (c n : ℕ) (l : Bytes) (v : UInt8) (h : c ≤ n) :
    segment (store (copyIn (move b (c+l.length) c (n-c)) c l) (n+l.length) v) 0 (n+l.length) =
      segment b 0 c++(l++segment b c (n-c)) := by
  have hlen : n+l.length = c+(l.length+(n-c)) := by omega
  rw [segment_store _ _ _ _ _ (by omega)]
  conv_lhs => rw [hlen]
  rw [segment_add, segment_add, Nat.zero_add, segment_copyIn,
    segment_copyIn_of_disjoint _ _ _ _ _ (.inl (by omega)),
    segment_copyIn_of_disjoint _ _ _ _ _ (.inr (le_refl _)), segment_move,
    segment_move_of_le _ _ _ _ _ _ (by omega)]

theorem segment_delete (b : Buffer) (p c n : ℕ) (v : UInt8) (hp : p ≤ c) (h : c ≤ n) :
    segment (store (move b p c (n-c)) (n-(c-p)) v) 0 (n-(c-p)) =
      segment b 0 p++segment b c (n-c) := by
  have hlen : n-(c-p) = p+(n-c) := by omega
  rw [segment_store _ _ _ _ _ (by omega), hlen, segment_add, Nat.zero_add, segment_move,
    segment_move_of_le _ _ _ _ _ _ (by omega)]

end Lib.Memory
