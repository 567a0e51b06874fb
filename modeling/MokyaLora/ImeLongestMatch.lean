import MokyaLora.ImeSearch
import MokyaLora.Lib.Ranked

/-!
# The list of the longest matches

The loop over the prefixes merges what it finds into one list, so the list is that
of all results in the order of the searches, the first of every word kept.
-/

set_option autoImplicit false

namespace MokyaLora.Ime
open Lib.Fields Lib.Memory Lib.Ranked

variable (searcher : TrieSearch) (keys : Bytes)

/-- The key under which a prefix is looked up: first-tone markers are not part of it. -/
def prefixKeys (prefixLen : ℕ) : Bytes := (keys.take prefixLen).filter (fun b => b != 0x20)

/-- What the search of a prefix returns, in order and after the tone filter. -/
def prefixResults (prefixLen : ℕ) : List Candidate :=
  toneFilter (extractToneIntent keys prefixLen)
    (toneSort (extractToneIntent keys prefixLen)
      (searcher.search (prefixKeys keys prefixLen) kMaxCandidates))

def searchedPrefixes : ℕ → List (Candidate × ℕ) → List ℕ
  | 0, _ => []
  | slen+1, cands =>
    if kMaxCandidates ≤ cands.length then []
    else if skipLength keys = some (slen+1) then searchedPrefixes slen cands
    else match (strippedKeys keys)[slen]? with
      | some (_, i) => (i+1)::searchedPrefixes slen
          (mergeCandidates cands (prefixResults searcher keys (i+1)) (i+1))
      | none => searchedPrefixes slen cands

def prefixEntries (prefixLen : ℕ) : List (Candidate × ℕ) :=
  (prefixResults searcher keys prefixLen).map (fun c => (c, prefixLen))

def Returns (word : Bytes) (prefixLen : ℕ) : Prop :=
  ∃ c ∈ prefixResults searcher keys prefixLen, c.word = word

instance (word : Bytes) : DecidablePred (Returns searcher keys word) := fun prefixLen =>
  inferInstanceAs (Decidable (∃ c ∈ prefixResults searcher keys prefixLen, c.word = word))

def sameWords (p q : Candidate × ℕ) : Bool := decide (p.1.word = q.1.word)

/-- In the order of the sort for a tone: the better tier first, then the more
frequent word. -/
def Ranked (intent : ℕ) (a b : Candidate) : Prop :=
  toneTier a intent < toneTier b intent ∨
    toneTier a intent = toneTier b intent ∧ b.freq ≤ a.freq

instance (intent : ℕ) : DecidableRel (Ranked intent) := fun a b =>
  inferInstanceAs (Decidable (toneTier a intent < toneTier b intent ∨
    toneTier a intent = toneTier b intent ∧ b.freq ≤ a.freq))

section Prefixes

variable {searcher : TrieSearch} {keys : Bytes}

theorem stripped_take (n k : ℕ) (b : UInt8) (i : ℕ)
    (h : ((keys.zipIdx k).filter (fun p => p.1 != 0x20))[n]? = some (b, i)) :
    k ≤ i ∧ (((keys.zipIdx k).filter (fun p => p.1 != 0x20)).take (n+1)).map Prod.fst =
      (keys.take (i+1-k)).filter (fun b => b != 0x20) := by
  induction keys generalizing n k with
  | nil => simp at h
  | cons a keys ih =>
    rw [List.zipIdx_cons, List.filter_cons] at h ⊢
    by_cases ha : (a != 0x20) = true
    · rw [if_pos ha] at h ⊢
      cases n with
      | zero =>
        obtain ⟨rfl, rfl⟩ : a = b ∧ k = i := by simpa using h
        simp [ha]
      | succ n =>
        obtain ⟨hle, htake⟩ := ih n (k+1) h
        have hlen : i+1-k = i+1-(k+1)+1 := by omega
        refine ⟨by omega, ?_⟩
        rw [List.take_succ_cons, List.map_cons, htake, hlen, List.take_succ_cons, List.filter_cons,
          if_pos ha]
    · rw [if_neg ha] at h ⊢
      obtain ⟨hle, htake⟩ := ih n (k+1) h
      have hlen : i+1-k = i+1-(k+1)+1 := by omega
      refine ⟨by omega, ?_⟩
      rw [htake, hlen, List.take_succ_cons, List.filter_cons, if_neg ha]

theorem stripped_keys (n : ℕ) (b : UInt8) (i : ℕ) (h : (strippedKeys keys)[n]? = some (b, i)) :
    ((strippedKeys keys).take (n+1)).map Prod.fst = prefixKeys keys (i+1) :=
  (stripped_take n 0 b i h).2

theorem stripped_ascends : (strippedKeys keys).Pairwise (fun p q => p.2 < q.2) := by
  have hidx : keys.zipIdx.Pairwise (fun p q => p.2 < q.2) := by
    rw [← List.pairwise_map, List.zipIdx_map_snd]
    exact List.pairwise_lt_range'
  exact hidx.filter _

end Prefixes

section Loop

variable {searcher : TrieSearch} {keys : Bytes}

theorem merge_candidates (new : List Candidate) (cands : List (Candidate × ℕ)) (n : ℕ) :
    mergeCandidates cands new n =
      (new.map (fun c => (c, n))).foldl (keepNew sameWords kMaxCandidates) cands := by
  rw [mergeCandidates, List.foldl_map]
  rfl

theorem no_results (n : ℕ) (h : searcher.search (prefixKeys keys n) kMaxCandidates = []) :
    prefixResults searcher keys n = [] := by
  rw [prefixResults, h, toneFilter]
  split <;> rfl

/-- The loop merges the results of the prefixes that it searches. -/
theorem legacy_loop_merges (slen : ℕ) (acc : List (Candidate × ℕ) × ℕ) :
    (legacyLoop searcher keys slen acc).1 =
      ((searchedPrefixes searcher keys slen acc.1).flatMap (prefixEntries searcher keys)).foldl
        (keepNew sameWords kMaxCandidates) acc.1 := by
  induction slen generalizing acc with
  | zero => rfl
  | succ slen ih =>
    rw [legacyLoop, searchedPrefixes]
    by_cases hfull : kMaxCandidates ≤ acc.1.length
    · rw [if_pos hfull, if_pos hfull]
      rfl
    rw [if_neg hfull, if_neg hfull]
    by_cases hskip : skipLength keys = some (slen+1)
    · rw [if_pos hskip, if_pos hskip]
      exact ih acc
    rw [if_neg hskip, if_neg hskip]
    cases hi : (strippedKeys keys)[slen]? with
    | none =>
      dsimp only
      cases searcher.search (((strippedKeys keys).take (slen+1)).map Prod.fst) kMaxCandidates with
      | nil => exact ih acc
      | cons c cs => exact ih acc
    | some p =>
      obtain ⟨b, i⟩ := p
      rw [stripped_keys slen b i hi]
      dsimp only
      rw [List.flatMap_cons, List.foldl_append, prefixEntries, ← merge_candidates]
      cases hf : searcher.search (prefixKeys keys (i+1)) kMaxCandidates with
      | nil =>
        rw [no_results (i+1) hf]
        exact ih acc
      | cons c cs =>
        have hresults : prefixResults searcher keys (i+1) =
            toneFilter (extractToneIntent keys (i+1))
              (toneSort (extractToneIntent keys (i+1)) (c::cs)) := by
          rw [prefixResults, hf]
        rw [hresults]
        exact ih _

theorem searched_below (slen : ℕ) (cands : List (Candidate × ℕ)) (n : ℕ)
    (hn : n ∈ searchedPrefixes searcher keys slen cands) :
    ∃ k < slen, ∃ b i, (strippedKeys keys)[k]? = some (b, i) ∧ n = i+1 := by
  induction slen generalizing cands with
  | zero => cases hn
  | succ slen ih =>
    have hlater : ∀ cands', n ∈ searchedPrefixes searcher keys slen cands' →
        ∃ k < slen+1, ∃ b i, (strippedKeys keys)[k]? = some (b, i) ∧ n = i+1 := by
      intro cands' h
      obtain ⟨k, hk, hfound⟩ := ih cands' h
      exact ⟨k, Nat.lt_succ_of_lt hk, hfound⟩
    rw [searchedPrefixes] at hn
    split at hn
    · cases hn
    split at hn
    · exact hlater _ hn
    split at hn
    · rename_i b i hi
      rcases List.mem_cons.mp hn with rfl | hn
      · exact ⟨slen, Nat.lt_succ_self slen, b, i, hi, rfl⟩
      · exact hlater _ hn
    · exact hlater _ hn

theorem searched_descend (slen : ℕ) (cands : List (Candidate × ℕ)) :
    (searchedPrefixes searcher keys slen cands).Pairwise (fun m n => n < m) := by
  induction slen generalizing cands with
  | zero => exact .nil
  | succ slen ih =>
    rw [searchedPrefixes]
    split
    · exact .nil
    split
    · exact ih _
    split
    · rename_i b i hi
      rw [List.pairwise_cons]
      refine ⟨fun n hn => ?_, ih _⟩
      obtain ⟨k, hk, c, j, hj, rfl⟩ := searched_below slen _ n hn
      obtain ⟨hklt, hkget⟩ := List.getElem?_eq_some_iff.mp hj
      obtain ⟨hslt, hsget⟩ := List.getElem?_eq_some_iff.mp hi
      have hasc := List.pairwise_iff_getElem.mp stripped_ascends k slen hklt hslt hk
      rw [hkget, hsget] at hasc
      exact Nat.succ_lt_succ hasc
    · exact ih _

theorem searched_room (slen : ℕ) (cands : List (Candidate × ℕ)) (pre post : List ℕ) (n : ℕ)
    (h : searchedPrefixes searcher keys slen cands = pre++n::post) :
    ((pre.flatMap (prefixEntries searcher keys)).foldl (keepNew sameWords kMaxCandidates)
      cands).length < kMaxCandidates := by
  induction slen generalizing cands pre with
  | zero => exact absurd h (by simp [searchedPrefixes])
  | succ slen ih =>
    rw [searchedPrefixes] at h
    split at h
    · exact absurd h (by simp)
    rename_i hroom
    split at h
    · exact ih cands pre h
    split at h
    · rename_i b i hi
      cases pre with
      | nil => exact Nat.not_le.mp hroom
      | cons m pre =>
        rw [List.cons_append, List.cons.injEq] at h
        rw [← h.1, List.flatMap_cons, List.foldl_append, prefixEntries, ← merge_candidates]
        exact ih _ pre h.2
    · exact ih cands pre h

end Loop

section Ranked

theorem ranked_total (intent : ℕ) (a b : Candidate) : Ranked intent a b ∨ Ranked intent b a := by
  unfold Ranked
  omega

theorem ranked_trans (intent : ℕ) (a b c : Candidate) (hab : Ranked intent a b)
    (hbc : Ranked intent b c) : Ranked intent a c := by
  unfold Ranked at *
  omega

theorem tone_sort_ranked (intent : ℕ) (cs : List Candidate) :
    (toneSort intent cs).Pairwise (Ranked intent) := by
  have htotal : Std.Total (Ranked intent) := ⟨ranked_total intent⟩
  have htrans : IsTrans Candidate (Ranked intent) := ⟨ranked_trans intent⟩
  exact List.pairwise_insertionSort (Ranked intent) cs

theorem tone_filter_sublist (intent : ℕ) (cs : List Candidate) :
    (toneFilter intent cs).Sublist cs := by
  unfold toneFilter
  split
  · exact List.filter_sublist
  · exact List.Sublist.refl cs

end Ranked

section List

variable {searcher : TrieSearch} {keys : Bytes}

theorem prefix_results_ranked (n : ℕ) :
    (prefixResults searcher keys n).Pairwise (Ranked (extractToneIntent keys n)) :=
  (tone_sort_ranked _ _).sublist (tone_filter_sublist _ _)

theorem prefix_results_found (n : ℕ) (c : Candidate) (h : c ∈ prefixResults searcher keys n) :
    c ∈ searcher.search (prefixKeys keys n) kMaxCandidates :=
  (List.perm_insertionSort _ _).mem_iff.mp ((tone_filter_sublist _ _).subset h)

theorem mem_entries (ns : List ℕ) (p : Candidate × ℕ) :
    p ∈ ns.flatMap (prefixEntries searcher keys) ↔
      p.2 ∈ ns ∧ p.1 ∈ prefixResults searcher keys p.2 := by
  simp only [List.mem_flatMap, prefixEntries, List.mem_map]
  constructor
  · rintro ⟨n, hn, c, hc, rfl⟩
    exact ⟨hn, hc⟩
  · rintro ⟨hn, hc⟩
    exact ⟨p.2, hn, p.1, hc, rfl⟩

theorem entries_ordered (ns : List ℕ) (h : ns.Pairwise (fun m n => n < m)) :
    (ns.flatMap (prefixEntries searcher keys)).Pairwise (fun p q =>
      q.2 ≤ p.2 ∧ (p.2 = q.2 → Ranked (extractToneIntent keys p.2) p.1 q.1)) := by
  have hentry : ∀ n, ∀ p ∈ prefixEntries searcher keys n, p.2 = n := by
    intro n p hp
    obtain ⟨c, -, rfl⟩ := List.mem_map.mp hp
    rfl
  rw [List.pairwise_flatMap]
  constructor
  · intro n _
    rw [prefixEntries, List.pairwise_map]
    exact (prefix_results_ranked n).imp (fun hr => ⟨le_refl n, fun _ => hr⟩)
  · apply h.imp
    intro m n hlt p hp q hq
    rw [hentry m p hp, hentry n q hq]
    exact ⟨le_of_lt hlt, fun heq => absurd heq (Nat.ne_of_gt hlt)⟩

/-- A word that a searched prefix returns is listed there or before, if the loop
searches on. -/
theorem word_listed (slen : ℕ) (pre post : List ℕ) (m n : ℕ)
    (h : searchedPrefixes searcher keys slen [] = pre++m::n::post) (c : Candidate)
    (hc : c ∈ prefixResults searcher keys m) :
    ∃ p ∈ ((searchedPrefixes searcher keys slen []).flatMap (prefixEntries searcher keys)).foldl
      (keepNew sameWords kMaxCandidates) [], p.1.word = c.word ∧ p.2 ∈ pre++[m] ∧
        p.1 ∈ prefixResults searcher keys p.2 := by
  have hsplit : pre++m::n::post = (pre++[m])++n::post := by simp
  rw [hsplit] at h
  have hroom := searched_room slen [] (pre++[m]) post n h
  have hmem : (c, m) ∈ (pre++[m]).flatMap (prefixEntries searcher keys) :=
    (mem_entries _ _).mpr ⟨by simp, hc⟩
  obtain ⟨o, ho, hsame⟩ := fold_keepNew_covers sameWords kMaxCandidates
    (fun x => decide_eq_true rfl) _ [] hroom (c, m) hmem
  have hfrom := (fold_keepNew_sublist sameWords kMaxCandidates _ []).subset ho
  obtain ⟨hn, hres⟩ := (mem_entries _ _).mp hfrom
  refine ⟨o, ?_, of_decide_eq_true hsame, hn, hres⟩
  rw [h, List.flatMap_append, List.foldl_append]
  exact (fold_keepNew_extends sameWords kMaxCandidates _ _).subset ho

theorem first_longest (ns : List ℕ) (h : ns.Pairwise (fun m n => n < m)) (word : Bytes) (m : ℕ)
    (hm : m ∈ ns) (hw : Returns searcher keys word m) :
    ∃ pre k post, ns = pre++k::post ∧ Returns searcher keys word k ∧
      (∀ j ∈ pre, ¬ Returns searcher keys word j) ∧
      ∀ j ∈ ns, Returns searcher keys word j → j = k ∨ j ∈ post ∧ j < k := by
  have hsome : (ns.find? (fun j => decide (Returns searcher keys word j))).isSome := by
    rw [List.find?_isSome]
    exact ⟨m, hm, decide_eq_true hw⟩
  obtain ⟨k, hk⟩ := Option.isSome_iff_exists.mp hsome
  obtain ⟨hret, pre, post, rfl, hpre⟩ := List.find?_eq_some_iff_append.mp hk
  have hno : ∀ j ∈ pre, ¬ Returns searcher keys word j := by
    intro j hj
    simpa using hpre j hj
  have hlater := (List.pairwise_cons.mp (List.pairwise_append.mp h).2.1).1
  refine ⟨pre, k, post, rfl, of_decide_eq_true hret, hno, fun j hj hjw => ?_⟩
  rcases List.mem_append.mp hj with hj | hj
  · exact absurd hjw (hno j hj)
  · rcases List.mem_cons.mp hj with rfl | hj
    · exact .inl rfl
    · exact .inr ⟨hj, hlater j hj⟩

theorem longest_listed (slen : ℕ) (word : Bytes) (m : ℕ)
    (hm : m ∈ searchedPrefixes searcher keys slen []) (n : ℕ)
    (hn : n ∈ searchedPrefixes searcher keys slen []) (hlt : n < m)
    (hmw : Returns searcher keys word m) (hnw : Returns searcher keys word n) :
    ∃ p ∈ ((searchedPrefixes searcher keys slen []).flatMap (prefixEntries searcher keys)).foldl
      (keepNew sameWords kMaxCandidates) [], p.1.word = word ∧
        ∀ k ∈ searchedPrefixes searcher keys slen [], Returns searcher keys word k → k ≤ p.2 := by
  obtain ⟨pre, k, post, hns, ⟨c, hc, hcw⟩, hpre, hrest⟩ :=
    first_longest _ (searched_descend slen []) word m hm hmw
  have hpost : post ≠ [] := by
    rintro rfl
    have hmk := (hrest m hm hmw).resolve_right (fun h => List.not_mem_nil h.1)
    have hnk := (hrest n hn hnw).resolve_right (fun h => List.not_mem_nil h.1)
    omega
  obtain ⟨j, post, rfl⟩ := List.exists_cons_of_ne_nil hpost
  obtain ⟨p, hp, hword, hat, hres⟩ := word_listed slen pre post k j hns c hc
  have hk : p.2 = k := by
    rcases List.mem_append.mp hat with hin | hin
    · exact absurd ⟨p.1, hres, hword.trans hcw⟩ (hpre p.2 hin)
    · exact List.mem_singleton.mp hin
  refine ⟨p, hp, hword.trans hcw, fun i hi hiw => ?_⟩
  rcases hrest i hi hiw with rfl | hlater
  · exact le_of_eq hk.symm
  · exact hk ▸ le_of_lt hlater.2

end List

/-- The candidates of the search over the prefixes of the keys: at most as many as
there is room for, no word twice, longer prefixes first, each found by the search of
its own prefix and in the order of the sort among those of its prefix; and of the
searched prefixes that return a word it stands under the longest, where these are
several. -/
theorem longest_match (env : Env) (s : ImeLogic) (searcher : TrieSearch)
    (h : s.activeSearcher env = some searcher) :
    let cands := (s.runSearchV2Legacy env).candidates
    let searched := searchedPrefixes searcher s.keys (strippedKeys s.keys).length []
    cands.length ≤ kMaxCandidates ∧
    (cands.map (fun p => p.1.word)).Nodup ∧
    cands.Pairwise (fun p q => q.2 ≤ p.2) ∧
    (∀ p ∈ cands, p.2 ∈ searched ∧ p.1 ∈ prefixResults searcher s.keys p.2 ∧
      p.1 ∈ searcher.search (prefixKeys s.keys p.2) kMaxCandidates) ∧
    cands.Pairwise (fun p q => p.2 = q.2 → Ranked (extractToneIntent s.keys p.2) p.1 q.1) ∧
    ∀ word, ∀ m ∈ searched, ∀ n ∈ searched, n < m → Returns searcher s.keys word m →
      Returns searcher s.keys word n → ∃ p ∈ cands, p.1.word = word ∧
        ∀ k ∈ searched, Returns searcher s.keys word k → k ≤ p.2 := by
  dsimp only
  have hcands : (s.runSearchV2Legacy env).candidates =
      ((searchedPrefixes searcher s.keys (strippedKeys s.keys).length []).flatMap
        (prefixEntries searcher s.keys)).foldl (keepNew sameWords kMaxCandidates) [] := by
    rw [ImeLogic.runSearchV2Legacy, h]
    exact legacy_loop_merges _ ([], 0)
  rw [hcands]
  have hordered : (((searchedPrefixes searcher s.keys (strippedKeys s.keys).length []).flatMap
      (prefixEntries searcher s.keys)).foldl (keepNew sameWords kMaxCandidates) []).Pairwise
        (fun p q => q.2 ≤ p.2 ∧
          (p.2 = q.2 → Ranked (extractToneIntent s.keys p.2) p.1 q.1)) :=
    (entries_ordered _ (searched_descend _ [])).sublist (fold_keepNew_sublist _ _ _ [])
  refine ⟨fold_keepNew_length _ _ _ [] (Nat.zero_le _), ?_, hordered.imp And.left, fun p hp => ?_,
    hordered.imp And.right, longest_listed _⟩
  · have happart := fold_keepNew_apart sameWords kMaxCandidates
      ((searchedPrefixes searcher s.keys (strippedKeys s.keys).length []).flatMap
        (prefixEntries searcher s.keys)) [] .nil
    rw [List.Nodup, List.pairwise_map]
    exact happart.imp (fun hne heq => of_decide_eq_false hne heq)
  · obtain ⟨hn, hres⟩ := (mem_entries _ p).mp ((fold_keepNew_sublist _ _ _ []).subset hp)
    exact ⟨hn, hres, prefix_results_found p.2 p.1 hres⟩

def twoKeyTrie : TrieSearcher where
  dat := [0x4D, 0x49, 0x45, 0x44]++le16 2++le16 0++le32 1++le32 24++le32 0++le32 0++[2, 0x21, 0x29]
  val := le16 1++le16 100++[3, 3]++utf8 '比'
  keyCount := 1
  keysDataOff := 24
  version := 2

def twoKeyEnv : Env where
  zhSearcher := (TrieSearcher.loadFromMemory twoKeyTrie.dat twoKeyTrie.val).map
    TrieSearch.ofDictionary
  enSearcher := none
  compositionSearcher := none
  listener := true

def twoKeyState : ImeLogic := (ImeLogic.init.keyAppend 0x21 0xFF).keyAppend 0x29 0xFF

/-- The word is returned for ㄅㄧ and for ㄅ, and listed under ㄅㄧ. -/
theorem longest_match_two_keys :
    ∃ p ∈ (twoKeyState.runSearchV2Legacy twoKeyEnv).candidates, p.1.word = utf8 '比' ∧ 2 ≤ p.2 := by
  obtain ⟨p, hp, hword, hlongest⟩ := (longest_match twoKeyEnv twoKeyState
    (.ofDictionary twoKeyTrie) rfl).2.2.2.2.2 (utf8 '比') 2 (by decide +kernel) 1
    (by decide +kernel) (by decide) (by decide +kernel) (by decide +kernel)
  exact ⟨p, hp, hword, hlongest 2 (by decide +kernel) (by decide +kernel)⟩

end MokyaLora.Ime
