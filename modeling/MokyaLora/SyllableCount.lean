import MokyaLora.DictRoundTrip
import Mathlib.Data.List.Dedup
import Mathlib.Data.List.GetD

/-!
# Counting the syllables of the keys

The prefix table is sorted and searched by bisection. It holds the first key of
every reading, so keys that start with one are counted as at least one syllable.
-/

set_option autoImplicit false

namespace MokyaLora.CompositionSearcher
open Lib.Fields GenDict

section Bisection

variable (t : CompositionSearcher)

theorem prefix_table_le (hs : t.prefixTable.Pairwise (fun a b => a ≤ b)) (i j : ℕ) (hij : i ≤ j)
    (hj : j < t.prefixTable.length) : t.prefixTable.getD i 0 ≤ t.prefixTable.getD j 0 := by
  rw [List.getD_eq_getElem _ _ (by omega), List.getD_eq_getElem _ _ hj]
  rcases Nat.lt_or_eq_of_le hij with hlt | rfl
  · exact List.pairwise_iff_getElem.mp hs i j (by omega) hj hlt
  · exact le_refl _

theorem lower_bound_spec (hs : t.prefixTable.Pairwise (fun a b => a ≤ b)) (key n lo hi : ℕ)
    (hn : hi-lo ≤ n) (hhi : hi ≤ t.prefixTable.length)
    (hlow : ∀ i < lo, t.prefixTable.getD i 0 < key)
    (hup : ∀ i, hi ≤ i → i < t.prefixTable.length → key ≤ t.prefixTable.getD i 0) :
    (∀ i < t.lowerBound key n lo hi, t.prefixTable.getD i 0 < key) ∧
    ∀ i, t.lowerBound key n lo hi ≤ i → i < t.prefixTable.length →
      key ≤ t.prefixTable.getD i 0 := by
  have hget := t.prefix_table_le hs
  induction n generalizing lo hi with
  | zero =>
    rw [lowerBound]
    exact ⟨hlow, fun i hi' hi'' => hup i (by omega) hi''⟩
  | succ n ih =>
    rw [lowerBound]
    split
    · dsimp only
      split
      · rename_i hlt
        apply ih _ _ (by omega) hhi _ hup
        intro i hi'
        exact lt_of_le_of_lt (hget i (lo+(hi-lo)/2) (by omega) (by omega)) hlt
      · rename_i hle
        apply ih _ _ (by omega) (by omega) hlow
        intro i hi' hi''
        exact le_trans (not_lt.mp hle) (hget _ i hi' hi'')
    · exact ⟨hlow, fun i hi' hi'' => hup i (by omega) hi''⟩

theorem has_reading_iff (hs : t.prefixTable.Pairwise (fun a b => a ≤ b)) (b : Bytes)
    (hb : b ≠ [] ∧ b.length ≤ 4) :
    t.hasReadingPrefix b = true ↔ packPrefix b ∈ t.prefixTable := by
  have hnone : ∀ i < 0, t.prefixTable.getD i 0 < packPrefix b := fun i hi => absurd hi (by omega)
  obtain ⟨hlow, hup⟩ := t.lower_bound_spec hs (packPrefix b) t.prefixTable.length 0
    t.prefixTable.length (by omega) (le_refl _) hnone (fun i hi hi' => absurd hi' (by omega))
  rw [hasReadingPrefix]
  by_cases hnil : t.prefixTable = []
  · rw [if_pos (Or.inl hnil), hnil]
    simp
  · rw [if_neg (by
      rintro (h | h | h)
      · exact hnil h
      · exact hb.1 h
      · omega)]
    dsimp only
    generalize t.lowerBound (packPrefix b) t.prefixTable.length 0 t.prefixTable.length = lo at *
    rw [Bool.and_eq_true, decide_eq_true_iff, beq_iff_eq]
    constructor
    · rintro ⟨hlo, heq⟩
      rw [List.getD_eq_getElem _ _ hlo] at heq
      exact heq ▸ List.getElem_mem hlo
    · intro hmem
      obtain ⟨j, hj, heq⟩ := List.getElem_of_mem hmem
      rw [← List.getD_eq_getElem _ 0 hj] at heq
      have hle : lo ≤ j := by
        by_contra hlt
        have := hlow j (by omega)
        omega
      have hlo : lo < t.prefixTable.length := by omega
      exact ⟨hlo, le_antisymm (heq ▸ t.prefix_table_le hs lo j hle hj) (hup lo (le_refl _) hlo)⟩

theorem longest_pos (k : UInt8) (ks : Bytes) (h : t.hasReadingPrefix [k] = true) (len : ℕ)
    (hlen : 1 ≤ len) : 1 ≤ t.longestPrefix (k::ks) len := by
  induction len with
  | zero => omega
  | succ len ih =>
    rw [longestPrefix]
    split
    · omega
    · rename_i hno
      cases len with
      | zero => exact absurd h hno
      | succ len => exact ih (by omega)

theorem count_pos (k : UInt8) (ks : Bytes) (h : t.hasReadingPrefix [k] = true) :
    1 ≤ t.countSyllables (k::ks) := by
  have hbest := t.longest_pos k ks h (min (k::ks).length 4) (by simp)
  rw [countSyllables, List.length_cons, countFrom, if_neg (List.cons_ne_nil k ks)]
  dsimp only
  rw [if_neg (Nat.one_le_iff_ne_zero.mp hbest)]
  exact Nat.le_add_right 1 _

end Bisection

theorem mem_sorted_set (ns : List ℕ) (n : ℕ) : n ∈ sortedSet ns ↔ n ∈ ns := by
  rw [sortedSet, List.mem_insertionSort, List.mem_dedup]

theorem syllable_prefixes_sorted (raw : List RawEntry) (table : CharTable) :
    (syllablePrefixes raw table).Pairwise (fun a b => a ≤ b) := by
  have hsorted : ∀ ns, (sortedSet ns).Pairwise (fun a b => a ≤ b) :=
    fun ns => List.pairwise_insertionSort _ _
  unfold syllablePrefixes
  dsimp only
  split
  · exact hsorted _
  · exact hsorted _

theorem first_key_packed (k : UInt8) (ks : Bytes) : packPrefix [k] ∈ keyPrefixSet (k::ks) :=
  List.mem_map.mpr ⟨0, List.mem_range.mpr (by simp), rfl⟩

theorem first_key_mem (raw : List RawEntry) (p : Char × List Reading)
    (hp : p ∈ buildCharTableV4 raw) (r : Reading) (hr : r ∈ p.2) (k : UInt8)
    (hk : r.keyseq.head? = some k) :
    packPrefix [k] ∈ syllablePrefixes raw (buildCharTableV4 raw) := by
  have hpacked : packPrefix [k] ∈ keyPrefixSet r.keyseq := by
    cases hkeys : r.keyseq with
    | nil => rw [hkeys] at hk; cases hk
    | cons k' ks =>
      rw [hkeys] at hk
      cases hk
      exact first_key_packed k ks
  unfold syllablePrefixes
  dsimp only
  split
  · rw [buildSyllablePrefixSetFromCharTable, mem_sorted_set]
    exact List.mem_flatMap.mpr ⟨p, hp, List.mem_flatMap.mpr ⟨r, hr, hpacked⟩⟩
  · rw [buildSyllablePrefixSet, mem_sorted_set]
    obtain ⟨syl, hsyl, hkeyseq⟩ := reading_syllable raw p hp r hr
    obtain ⟨e, he, hsyl⟩ := List.mem_flatMap.mp hsyl
    rw [hkeyseq] at hpacked
    exact List.mem_flatMap.mpr ⟨e, he, List.mem_flatMap.mpr ⟨syl, hsyl, hpacked⟩⟩

theorem count_reading {raw : List RawEntry} {groups : List (List WordEntry)}
    {t : CompositionSearcher} (hd : Decodes (buildCharTableV4 raw) groups
      (syllablePrefixes raw (buildCharTableV4 raw)) t)
    (p : Char × List Reading) (hp : p ∈ buildCharTableV4 raw) (r : Reading) (hr : r ∈ p.2)
    (k : UInt8) (hk : r.keyseq.head? = some k) (ks : Bytes) : 1 ≤ t.countSyllables (k::ks) := by
  apply count_pos
  rw [has_reading_iff t (hd.prefixTable ▸ syllable_prefixes_sorted raw _) [k] (by simp),
    hd.prefixTable]
  exact first_key_mem raw p hp r hr k hk

end MokyaLora.CompositionSearcher
