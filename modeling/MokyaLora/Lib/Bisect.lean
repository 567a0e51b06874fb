import Mathlib.Order.Basic
import Mathlib.Data.Finset.Card
import Mathlib.Data.Finset.Range
import Mathlib.Tactic.Common

/-!
# Binary search for a key

The keys are probed one at a time, and a probe may fail. A search among keys that can all be
read ends with an answer, which for rising keys is the right one. A search that finds
nothing has probed at two places of every distance up to its interval, within a factor of
two.
-/

set_option autoImplicit false

namespace Lib.Bisect

variable {κ ν : Type*} [LinearOrder κ] (probe : ℕ → Option κ) (value : ℕ → Option ν) (k : κ)

def middle (lo hi : ℕ) : ℕ := lo+(hi-lo)/2

/-- The interval shrinks in every round, so its length is enough rounds. -/
def search : ℕ → ℕ → ℕ → Option (Option ν)
  | 0, _, _ => some none
  | n+1, lo, hi =>
    if lo < hi then
      (probe (middle lo hi)).bind (fun c =>
        if c = k then (value (middle lo hi)).map some
        else if c < k then search n (middle lo hi+1) hi
        else search n lo (middle lo hi))
    else some none

theorem middle_bounds {lo hi : ℕ} (h : lo < hi) : lo ≤ middle lo hi ∧ middle lo hi < hi := by
  rw [middle]
  omega

theorem search_isSome (n lo hi : ℕ)
    (h : ∀ i, lo ≤ i → i < hi → (probe i).isSome ∧ (value i).isSome) :
    (search probe value k n lo hi).isSome := by
  induction n generalizing lo hi with
  | zero => rfl
  | succ n ih =>
    rw [search]
    split_ifs with hlt
    · obtain ⟨hlo, hhi⟩ := middle_bounds hlt
      obtain ⟨hprobe, hvalue⟩ := h _ hlo hhi
      obtain ⟨c, hc⟩ := Option.isSome_iff_exists.mp hprobe
      obtain ⟨v, hv⟩ := Option.isSome_iff_exists.mp hvalue
      rw [hc, Option.bind_some, hv]
      split_ifs
      · rfl
      · exact ih _ _ (fun i hi hilt => h i (by omega) hilt)
      · exact ih _ _ (fun i hi hilt => h i hi (by omega))
    · rfl

theorem search_absent (n lo hi : ℕ) (h : ∀ i, lo ≤ i → i < hi → ∃ c, probe i = some c ∧ c ≠ k) :
    search probe value k n lo hi = some none := by
  induction n generalizing lo hi with
  | zero => rfl
  | succ n ih =>
    rw [search]
    split_ifs with hlt
    · obtain ⟨hlo, hhi⟩ := middle_bounds hlt
      obtain ⟨c, hc, hne⟩ := h _ hlo hhi
      rw [hc, Option.bind_some, if_neg hne]
      split_ifs
      · exact ih _ _ (fun i hi hilt => h i (by omega) hilt)
      · exact ih _ _ (fun i hi hilt => h i hi (by omega))
    · rfl

theorem search_found (keys : ℕ → κ) (n lo hi : ℕ) (hn : hi-lo ≤ n)
    (hprobe : ∀ i, lo ≤ i → i < hi → probe i = some (keys i))
    (hrise : ∀ i j, i < j → j < hi → keys i < keys j) (i : ℕ) (hlo : lo ≤ i) (hhi : i < hi) :
    search probe value (keys i) n lo hi = (value i).map some := by
  induction n generalizing lo hi with
  | zero => omega
  | succ n ih =>
    have hlt : lo < hi := by omega
    obtain ⟨hml, hmh⟩ := middle_bounds hlt
    rw [search, if_pos hlt, hprobe _ hml hmh, Option.bind_some]
    rcases Nat.lt_trichotomy (middle lo hi) i with hbelow | hhit | habove
    · have hkey := hrise _ _ hbelow hhi
      rw [if_neg hkey.ne, if_pos hkey]
      exact ih _ _ (by omega) (fun j hj hjh => hprobe j (by omega) hjh) hrise (by omega) hhi
    · rw [hhit, if_pos rfl]
    · have hkey := hrise _ _ habove hmh
      rw [if_neg hkey.ne', if_neg (not_lt_of_gt hkey)]
      refine ih _ _ ?_ (fun j hj hjh => hprobe j hj (by omega))
        (fun j l hjl hl => hrise j l hjl (by omega)) hlo habove
      rw [middle] at *
      omega

/-- A search that never hits its key has read two keys that stand between `a` and `2*a`
apart, when its interval has at least `4*a` places. -/
theorem far_probes (a n lo hi : ℕ) (ha : 0 < a) (hlen : 4*a ≤ hi-lo) (hn : hi-lo ≤ n)
    (hmiss : ∀ i c, probe i = some c → c ≠ k) (hsome : (search probe value k n lo hi).isSome) :
    ∃ i j, (probe i).isSome ∧ (probe j).isSome ∧ i+a ≤ j ∧ j ≤ i+2*a := by
  have hstep : ∀ n lo hi, lo < hi → (search probe value k (n+1) lo hi).isSome →
      (probe (middle lo hi)).isSome ∧ ((search probe value k n (middle lo hi+1) hi).isSome ∨
        (search probe value k n lo (middle lo hi)).isSome) := by
    intro n lo hi hlt hs
    rw [search, if_pos hlt] at hs
    cases hc : probe (middle lo hi) with
    | none => simp [hc] at hs
    | some c =>
      rw [hc, Option.bind_some, if_neg (hmiss _ c hc)] at hs
      split_ifs at hs
      · exact ⟨rfl, .inl hs⟩
      · exact ⟨rfl, .inr hs⟩
  induction n generalizing lo hi with
  | zero => omega
  | succ n ih =>
    obtain ⟨hprobe, hrest⟩ := hstep n lo hi (by omega) hsome
    by_cases hbig : 8*a < hi-lo
    · rcases hrest with hright | hleft
      · exact ih _ _ (by rw [middle]; omega) (by rw [middle]; omega) hright
      · exact ih _ _ (by rw [middle]; omega) (by rw [middle]; omega) hleft
    · obtain ⟨m, rfl⟩ : ∃ m, n = m+1 := ⟨n-1, by omega⟩
      rcases hrest with hright | hleft
      · obtain ⟨hnext, -⟩ := hstep m _ _ (by rw [middle]; omega) hright
        refine ⟨_, _, hprobe, hnext, ?_, ?_⟩ <;> simp only [middle] <;> omega
      · obtain ⟨hnext, -⟩ := hstep m _ _ (by rw [middle]; omega) hleft
        refine ⟨_, _, hnext, hprobe, ?_, ?_⟩ <;> simp only [middle] <;> omega

theorem exists_missing (l : List ℕ) (n : ℕ) (h : l.length < n) : ∃ m < n, m ∉ l := by
  have hcard : l.toFinset.card < (Finset.range n).card := by
    rw [Finset.card_range]
    exact Nat.lt_of_le_of_lt (List.toFinset_card_le l) h
  obtain ⟨m, hm, hnot⟩ := Finset.exists_mem_notMem_of_card_lt_card hcard
  exact ⟨m, Finset.mem_range.mp hm, fun hl => hnot (List.mem_toFinset.mpr hl)⟩

end Lib.Bisect
