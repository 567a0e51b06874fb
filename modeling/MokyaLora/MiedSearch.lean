import MokyaLora.Lib.Lexicon
import MokyaLora.MiedRoundTrip

/-!
# Searching a built dictionary

The keys that start with the query stand together in the index. A search offers the words of
these keys to its results, key by key, and the words of one key by falling frequency.
-/

set_option autoImplicit false

namespace MokyaLora

namespace TrieSearcher
open Lib.Fields

variable {t : TrieSearcher}

/-- The binary search ends between the keys below the query and the others. -/
theorem first_splits (q : Bytes) (hdown : ∀ i j, i ≤ j → j < t.keyCount →
      t.compareKey j q = .lt → t.compareKey i q = .lt) :
    (∀ i < t.first q, t.compareKey i q = .lt) ∧
      ∀ i, t.first q ≤ i → i < t.keyCount → t.compareKey i q ≠ .lt := by
  have hsearch : ∀ n lo hi, hi-lo ≤ n → lo ≤ hi → hi ≤ t.keyCount →
      (∀ i < lo, t.compareKey i q = .lt) →
      (∀ i, hi ≤ i → i < t.keyCount → t.compareKey i q ≠ .lt) →
      (∀ i < t.lowerBound q n lo hi, t.compareKey i q = .lt) ∧
        ∀ i, t.lowerBound q n lo hi ≤ i → i < t.keyCount → t.compareKey i q ≠ .lt := by
    intro n
    induction n with
    | zero =>
      intro lo hi hn hle _ hbelow habove
      have heq : lo = hi := by omega
      exact ⟨hbelow, heq ▸ habove⟩
    | succ n ih =>
      intro lo hi hn hle hhi hbelow habove
      rw [lowerBound]
      by_cases hlt : lo < hi
      · rw [if_pos hlt]
        dsimp only
        by_cases hmid : t.compareKey (lo+(hi-lo)/2) q = .lt
        · rw [if_pos hmid]
          refine ih _ _ (by omega) (by omega) hhi (fun i hi' => ?_) habove
          exact hdown i _ (by omega) (by omega) hmid
        · rw [if_neg hmid]
          refine ih _ _ (by omega) (by omega) (by omega) hbelow (fun i hi' hcount hc => ?_)
          exact hmid (hdown _ i hi' hcount hc)
      · rw [if_neg hlt]
        have heq : lo = hi := by omega
        exact ⟨hbelow, heq ▸ habove⟩
  exact hsearch _ _ _ le_rfl (Nat.zero_le _) le_rfl (fun i hi => absurd hi (Nat.not_lt_zero i))
    (fun i hle hlt => absurd hlt (not_lt.mpr hle))

end TrieSearcher

namespace GenDict
open Lib.Fields Lib.Buckets Lib.Leaderboard

variable {dict : List (Bytes × List MiedWord)}

theorem keys_sorted : (sortedKeys dict).Pairwise (· ≤ ·) := List.pairwise_insertionSort _ _

theorem first_drop (h : MiedFits dict) (hr : Reaches dict) (q : Bytes) :
    (∀ ks ∈ (sortedKeys dict).take ((miedSearcher dict).first q), ks < q) ∧
      ∀ ks ∈ (sortedKeys dict).drop ((miedSearcher dict).first q), q ≤ ks := by
  obtain ⟨hbelow, habove⟩ := (miedSearcher dict).first_splits q (by
    intro i j hij hj hlt
    rw [compare_key h hr j hj] at hlt
    rw [compare_key h hr i (lt_of_le_of_lt hij hj)]
    rcases Nat.eq_or_lt_of_le hij with rfl | hij
    · exact hlt
    · exact List.lt_of_le_of_lt (List.pairwise_iff_getElem.mp keys_sorted i j _ hj hij) hlt)
  have hcount : (miedSearcher dict).keyCount = (sortedKeys dict).length := rfl
  rw [hcount] at habove
  generalize (miedSearcher dict).first q = lo at hbelow habove ⊢
  constructor
  · intro ks hks
    obtain ⟨i, hi, rfl⟩ := List.getElem_of_mem hks
    rw [List.length_take] at hi
    rw [List.getElem_take]
    exact (compare_key h hr i (by omega) q).mp (hbelow i (by omega))
  · intro ks hks
    obtain ⟨i, hi, rfl⟩ := List.getElem_of_mem hks
    rw [List.length_drop] at hi
    rw [List.getElem_drop]
    intro hlt
    have hidx : lo+i < (sortedKeys dict).length := by omega
    exact habove _ (Nat.le_add_right lo i) hidx ((compare_key h hr _ hidx q).mpr hlt)

def keyCandidates (dict : List (Bytes × List MiedWord)) (ks : Bytes) : List Candidate :=
  (validWords (wordsOf dict ks)).map MiedWord.candidate

theorem entry_words (h : MiedFits dict) (hr : Reaches dict)
    (hshown : ∀ ks ∈ sortedKeys dict, ∀ w ∈ wordsOf dict ks, w.Shown) (maxResults i : ℕ)
    (hi : i < (sortedKeys dict).length) (out : List Candidate) :
    (miedSearcher dict).entryWords maxResults i out =
      (keyCandidates dict (sortedKeys dict)[i]).foldl
        (offer Candidate.freq Candidate.word maxResults) out := by
  have hmem := List.getElem_mem hi
  have hval := hr.val
  have hvo : (miedSearcher dict).getValOff i = start (valueParts dict) i := (index_entry h i hi).2
  obtain ⟨hcount, hwords⟩ := (at_append _ _ _ _).mp (value_at i hi)
  have hfits := hcount.fits (by simp [le16])
  rw [le16_length] at hfits hwords
  have hbuf : (miedSearcher dict).val = valBytes dict := rfl
  rw [TrieSearcher.entryWords, hvo, hbuf, TrieSearcher.u32_of_lt _ (by omega), if_neg (by omega),
    load16_at (h.values _ hmem).count hcount]
  refine merge_words (miedSearcher dict) rfl hval maxResults _ (h.values _ hmem).words
    (fun w hw => valid_length _ w hw) (fun w hw => ?_) _ hwords out
  rw [validWords, List.mem_filter, sortedWords, List.mem_insertionSort] at hw
  exact hshown _ hmem w hw.1

theorem scan_words (h : MiedFits dict) (hr : Reaches dict)
    (hshown : ∀ ks ∈ sortedKeys dict, ∀ w ∈ wordsOf dict ks, w.Shown) (q : Bytes) (maxResults n i : ℕ)
    (hn : i+n = (sortedKeys dict).length) (out : List Candidate) :
    (miedSearcher dict).scan q maxResults n i out =
      ((((sortedKeys dict).drop i).takeWhile (fun ks => decide (q <+: ks))).flatMap
        (keyCandidates dict)).foldl (offer Candidate.freq Candidate.word maxResults) out := by
  induction n generalizing i out with
  | zero =>
    rw [List.drop_of_length_le (by omega)]
    rfl
  | succ n ih =>
    have hi : i < (sortedKeys dict).length := by omega
    rw [TrieSearcher.scan_succ, List.drop_eq_getElem_cons hi]
    by_cases hm : q <+: (sortedKeys dict)[i]
    · rw [if_pos ((matches_iff h hr i hi q).mpr hm), List.takeWhile_cons_of_pos (by simpa using hm),
        List.flatMap_cons, List.foldl_append, entry_words h hr hshown maxResults i hi,
        ih (i+1) (by omega)]
    · rw [if_neg (fun hc => hm ((matches_iff h hr i hi q).mp hc)),
        List.takeWhile_cons_of_neg (by simpa using hm)]
      rfl

theorem search_board (h : MiedFits dict) (hr : Reaches dict)
    (hshown : ∀ ks ∈ sortedKeys dict, ∀ w ∈ wordsOf dict ks, w.Shown) (q : Bytes) (hq : q ≠ [])
    (maxResults : ℕ) (hN : 0 < maxResults) :
    (miedSearcher dict).search q maxResults = board Candidate.freq Candidate.word maxResults
      (((sortedKeys dict).filter (fun ks => decide (q <+: ks))).flatMap (keyCandidates dict)) := by
  obtain ⟨hbelow, habove⟩ := first_drop h hr q
  have hle : (miedSearcher dict).first q ≤ (sortedKeys dict).length :=
    (miedSearcher dict).lower_bound_le q _ _ _ (Nat.zero_le _)
  rw [TrieSearcher.search, if_neg (by simp [hq]; omega)]
  have hscan := scan_words h hr hshown q maxResults
    ((sortedKeys dict).length-(miedSearcher dict).first q) ((miedSearcher dict).first q)
    (Nat.add_sub_cancel' hle) []
  rw [Lib.Lexicon.take_while_prefix q _ (keys_sorted.sublist (List.drop_sublist _ _)) habove,
    Lib.Lexicon.filter_drop q _ _ hbelow] at hscan
  exact hscan

end GenDict

end MokyaLora
