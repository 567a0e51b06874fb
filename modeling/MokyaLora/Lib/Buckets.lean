import Mathlib.Data.List.Basic
import Mathlib.Tactic.Common

/-!
# Buckets stored one after the other

A table of buckets is stored as their concatenation with the positions where they
start. The elements between two neighbouring positions are those of one bucket.
-/

set_option autoImplicit false

namespace Lib.Buckets

variable {α : Type*}

def starts : ℕ → List (List α) → List ℕ
  | o, [] => [o]
  | o, b::bs => o::starts (o+b.length) bs

def start (bs : List (List α)) (k : ℕ) : ℕ := (bs.take k).flatten.length

@[simp] theorem start_zero (bs : List (List α)) : start bs 0 = 0 := by simp [start]

@[simp] theorem start_cons (b : List α) (bs : List (List α)) (k : ℕ) :
    start (b::bs) (k+1) = b.length+start bs k := by
  simp [start]

theorem start_succ (bs : List (List α)) (k : ℕ) (h : k < bs.length) :
    start bs (k+1) = start bs k+bs[k].length := by
  rw [start, List.take_succ_eq_append_getElem h, List.flatten_append, List.length_append, start]
  simp

theorem start_end (bs : List (List α)) : start bs bs.length = bs.flatten.length := by
  rw [start, List.take_length]

theorem start_le (bs : List (List α)) (k : ℕ) : start bs k ≤ bs.flatten.length := by
  conv_rhs => rw [← List.take_append_drop k bs, List.flatten_append, List.length_append]
  exact Nat.le_add_right _ _

@[simp] theorem starts_length (o : ℕ) (bs : List (List α)) : (starts o bs).length = bs.length+1 := by
  induction bs generalizing o with
  | nil => rfl
  | cons b bs ih => simp [starts, ih]

theorem starts_getElem (o : ℕ) (bs : List (List α)) (k : ℕ) (h : k < (starts o bs).length) :
    (starts o bs)[k] = o+start bs k := by
  induction bs generalizing o k with
  | nil =>
    have hk : k = 0 := by simpa [starts] using h
    subst hk
    simp [starts]
  | cons b bs ih =>
    cases k with
    | zero => simp [starts]
    | succ k =>
      simp only [starts, List.getElem_cons_succ, start_cons]
      rw [ih]
      omega

theorem bucket_slice (bs : List (List α)) (k : ℕ) (h : k < bs.length) :
    (bs.flatten.drop (start bs k)).take bs[k].length = bs[k] := by
  have hs : bs.flatten = (bs.take k).flatten++(bs[k]++(bs.drop (k+1)).flatten) := by
    rw [← List.flatten_cons, ← List.drop_eq_getElem_cons h, ← List.flatten_append,
      List.take_append_drop]
  conv_lhs => rw [hs]
  rw [start, List.drop_left, List.take_left]

/-- Reading the positions of a bucket gives the bucket. -/
theorem bucket_map (bs : List (List α)) (f : ℕ → α)
    (hf : ∀ i, ∀ h : i < bs.flatten.length, f i = bs.flatten[i]) (k : ℕ) (h : k < bs.length) :
    (List.range' (start bs k) (start bs (k+1)-start bs k)).map f = bs[k] := by
  have hs := start_succ bs k h
  have hle := start_le bs (k+1)
  have hslice := bucket_slice bs k h
  apply List.ext_getElem
  · rw [List.length_map, List.length_range']
    omega
  · intro i hi hi'
    rw [List.length_map, List.length_range'] at hi
    rw [List.getElem_map, List.getElem_range', Nat.one_mul, hf _ (by omega)]
    rw [List.getElem_of_eq hslice.symm hi', List.getElem_take, List.getElem_drop]

theorem exists_bucket (bs : List (List α)) (i : ℕ) (h : i < bs.flatten.length) :
    ∃ k, ∃ hk : k < bs.length, start bs k ≤ i ∧ i < start bs (k+1) ∧
      bs.flatten[i] ∈ bs[k] := by
  induction bs generalizing i with
  | nil => simp at h
  | cons b bs ih =>
    by_cases hi : i < b.length
    · refine ⟨0, Nat.succ_pos _, by simp, by simpa using hi, ?_⟩
      simp [List.getElem_append_left hi]
    · simp only [List.flatten_cons, List.length_append] at h
      obtain ⟨k, hk, hlo, hup, hmem⟩ := ih (i-b.length) (by omega)
      refine ⟨k+1, Nat.succ_lt_succ hk, ?_, ?_, ?_⟩
      · rw [start_cons]; omega
      · rw [start_cons]; omega
      · simpa [List.getElem_append_right (Nat.le_of_not_lt hi)] using hmem

theorem bucket_range (bs : List (List α)) (key : α → ℕ)
    (hkey : ∀ k, ∀ hk : k < bs.length, ∀ x ∈ bs[k], key x = k)
    (i : ℕ) (h : i < bs.flatten.length) (k : ℕ) (hk : k < bs.length) :
    start bs k ≤ i ∧ i < start bs (k+1) ↔ key bs.flatten[i] = k := by
  have hmono : ∀ j l, j ≤ l → start bs j ≤ start bs l := by
    intro j l hjl
    have hs : bs.take j = (bs.take l).take j := by rw [List.take_take, Nat.min_eq_left hjl]
    rw [start, start, hs]
    exact start_le (bs.take l) j
  obtain ⟨j, hj, hlo, hup, hmem⟩ := exists_bucket bs i h
  have hkeyj := hkey j hj _ hmem
  rw [hkeyj]
  constructor
  · rintro ⟨hlo', hup'⟩
    by_contra hne
    rcases Nat.lt_or_gt_of_ne hne with hlt | hgt
    · have := hmono (j+1) k hlt
      omega
    · have := hmono (k+1) j hgt
      omega
  · rintro rfl
    exact ⟨hlo, hup⟩

/-- An index that leads to everything wanted shows the same as the whole list. -/
theorem filter_map_perm {β : Type*} [DecidableEq α] (l l' : List α) (hl : l.Nodup) (hl' : l'.Nodup)
    (hsub : ∀ x ∈ l, x ∈ l') (f : α → Option β) (hf : ∀ x ∈ l', x ∉ l → f x = none) :
    (l.filterMap f).Perm (l'.filterMap f) := by
  have hin : (l'.filter (fun x => x ∈ l)).Perm l := by
    rw [List.perm_ext_iff_of_nodup (hl'.filter _) hl]
    intro x
    rw [List.mem_filter, decide_eq_true_iff]
    exact ⟨fun h => h.2, fun h => ⟨hsub x h, h⟩⟩
  have hout : l'.filterMap f = (l'.filter (fun x => x ∈ l)).filterMap f := by
    rw [List.filterMap_filter]
    apply List.filterMap_congr
    intro x hx
    by_cases hmem : x ∈ l
    · simp [hmem]
    · simp [hmem, hf x hx hmem]
  rw [hout]
  exact (hin.filterMap f).symm

theorem filter_map_range {β : Type*} (l : List α) (f : α → Option β) :
    (List.range l.length).filterMap (fun i => l[i]?.bind f) = l.filterMap f := by
  have hsome : (List.range l.length).map (fun i => l[i]?) = l.map some := by
    apply List.ext_getElem
    · simp
    · intro i hi hi'
      rw [List.length_map] at hi'
      simp [List.getElem?_eq_getElem hi']
  have h := congrArg (List.filterMap (fun o => o.bind f)) hsome
  rw [List.filterMap_map, List.filterMap_map] at h
  exact h

end Lib.Buckets
