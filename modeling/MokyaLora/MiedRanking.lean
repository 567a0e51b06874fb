import MokyaLora.MiedSearch
import Mathlib.Data.List.Dedup
import Mathlib.Data.List.MinMax
import Mathlib.Order.Nat

/-!
# The ranking of a search

A word that stands under several keys is taken with the frequency of the first of them, and
passed over when it comes again. So its rank is its highest frequency only where the least of
its matching keys has it.
-/

set_option autoImplicit false

namespace MokyaLora.GenDict
open Lib.Fields Lib.Leaderboard

def kWordMaxBytes : ℕ := 30

def matching (entries : List MiedEntry) (q : Bytes) : List MiedEntry :=
  entries.filter (fun e => decide (q <+: e.1 ∧ (Ime.text e.2.word).length ≤ kWordMaxBytes))

def wordFreq (entries : List MiedEntry) (q word : Bytes) : ℕ :=
  (((matching entries q).filter (fun e => decide (Ime.text e.2.word = word))).map
    (fun e => e.2.stored)).foldr max 0

def found (entries : List MiedEntry) (q : Bytes) : List (Bytes × ℕ) :=
  ((matching entries q).map (fun e => Ime.text e.2.word)).dedup.map
    (fun word => (word, wordFreq entries q word))

/-- Each matching word has its highest frequency under the least of its matching keys. -/
def FirstBest (entries : List MiedEntry) (q : Bytes) : Prop :=
  ∀ e ∈ matching entries q, ∃ e₀ ∈ matching entries q, e₀.2.word = e.2.word ∧
    ∀ e' ∈ matching entries q, e'.2.word = e.2.word → e₀.1 ≤ e'.1 ∧ e'.2.stored ≤ e₀.2.stored

instance (entries : List MiedEntry) (q : Bytes) : Decidable (FirstBest entries q) :=
  inferInstanceAs (Decidable (∀ e ∈ matching entries q, ∃ e₀ ∈ matching entries q, _))

variable {entries : List MiedEntry} {q : Bytes}

theorem stored_le (e : MiedEntry) (h : e ∈ matching entries q) :
    e.2.stored ≤ wordFreq entries q (Ime.text e.2.word) := by
  rw [wordFreq]
  have hmem : e.2.stored ∈ ((matching entries q).filter
      (fun e' => decide (Ime.text e'.2.word = Ime.text e.2.word))).map (fun e => e.2.stored) :=
    List.mem_map.mpr ⟨e, List.mem_filter.mpr ⟨h, by simp⟩, rfl⟩
  exact List.le_max_of_le' 0 hmem le_rfl

theorem word_freq_le (word : Bytes) (n : ℕ)
    (h : ∀ e ∈ matching entries q, Ime.text e.2.word = word → e.2.stored ≤ n) :
    wordFreq entries q word ≤ n := by
  refine List.max_le_of_forall_le _ n ?_
  intro m hm
  obtain ⟨e, he, rfl⟩ := List.mem_map.mp hm
  rw [List.mem_filter] at he
  exact h e he.1 (of_decide_eq_true he.2)

def stream (entries : List MiedEntry) (q : Bytes) : List MiedEntry :=
  ((sortedKeys (keyToWords entries 0)).filter (fun ks => decide (q <+: ks))).flatMap
    (fun ks => (validWords (wordsOf (keyToWords entries 0) ks)).map (fun w => (ks, w)))

theorem key_to_words : keyToWords entries 0 = Lib.Dict.group entries := by
  rw [keyToWords]
  conv_rhs => rw [← List.map_id (Lib.Dict.group entries)]
  apply List.map_congr_left
  intro p _
  rw [prune, if_neg (by simp)]
  rfl

theorem words_of (ks : Bytes) : wordsOf (keyToWords entries 0) ks =
    (entries.filter (fun e => decide (e.1 = ks))).map Prod.snd := by
  rw [key_to_words, wordsOf, Lib.Dict.group_get]

theorem mem_words_of (ks : Bytes) (w : MiedWord) :
    w ∈ wordsOf (keyToWords entries 0) ks ↔ (ks, w) ∈ entries := by
  rw [words_of]
  simp

theorem mem_keys (ks : Bytes) :
    ks ∈ sortedKeys (keyToWords entries 0) ↔ ∃ e ∈ entries, e.1 = ks := by
  rw [sortedKeys, List.mem_insertionSort, key_to_words, Lib.Dict.mem_group_keys]

theorem keys_ascend : (sortedKeys (keyToWords entries 0)).Pairwise (· < ·) := by
  have hnodup : (sortedKeys (keyToWords entries 0)).Nodup := by
    rw [sortedKeys, (List.perm_insertionSort _ _).nodup_iff, key_to_words]
    exact Lib.Dict.group_nodup entries
  refine (keys_sorted.and hnodup).imp ?_
  rintro a b ⟨hle, hne⟩
  exact (List.le_iff_lt_or_eq.mp hle).resolve_right hne

theorem mem_stream (e : MiedEntry) : e ∈ stream entries q ↔ e ∈ matching entries q := by
  rw [stream, matching, List.mem_flatMap, List.mem_filter]
  constructor
  · rintro ⟨ks, hks, he⟩
    obtain ⟨w, hw, rfl⟩ := List.mem_map.mp he
    have hlen := valid_length _ w hw
    rw [validWords, List.mem_filter, sortedWords, List.mem_insertionSort, mem_words_of] at hw
    rw [List.mem_filter] at hks
    exact ⟨hw.1, decide_eq_true ⟨of_decide_eq_true hks.2, Nat.le_of_lt_succ hlen⟩⟩
  · rintro ⟨he, hm⟩
    obtain ⟨hpre, hlen⟩ := of_decide_eq_true hm
    refine ⟨e.1, ?_, List.mem_map.mpr ⟨e.2, ?_, rfl⟩⟩
    · rw [List.mem_filter, mem_keys]
      exact ⟨⟨e, he, rfl⟩, decide_eq_true hpre⟩
    · rw [validWords, List.mem_filter, sortedWords, List.mem_insertionSort, mem_words_of]
      exact ⟨he, decide_eq_true (Nat.lt_succ_of_le hlen)⟩

theorem stream_order : (stream entries q).Pairwise
    (fun a b => a.1 < b.1 ∨ (a.1 = b.1 ∧ b.2.stored ≤ a.2.stored)) := by
  rw [stream, List.pairwise_flatMap]
  constructor
  · intro ks _
    rw [List.pairwise_map]
    have : Std.Total (fun a b : MiedWord => b.freq ≤ a.freq) :=
      ⟨fun a b => le_total b.freq a.freq⟩
    have : IsTrans MiedWord (fun a b => b.freq ≤ a.freq) := ⟨fun _ _ _ h h' => le_trans h' h⟩
    have hsorted : (sortedWords (wordsOf (keyToWords entries 0) ks)).Pairwise
        (fun a b => b.freq ≤ a.freq) := List.pairwise_insertionSort _ _
    refine (hsorted.sublist List.filter_sublist).imp ?_
    intro a b hab
    refine .inr ⟨rfl, ?_⟩
    dsimp only
    rw [MiedWord.stored, MiedWord.stored]
    omega
  · refine (keys_ascend.sublist List.filter_sublist).imp ?_
    intro a b hab x hx y hy
    obtain ⟨_, -, rfl⟩ := List.mem_map.mp hx
    obtain ⟨_, -, rfl⟩ := List.mem_map.mp hy
    exact .inl hab

theorem first_least (pre post : List MiedEntry) (e e' : MiedEntry)
    (hs : stream entries q = pre++e::post) (hnew : ∀ x ∈ pre, x.2.word ≠ e.2.word)
    (he' : e' ∈ matching entries q) (hword : e'.2.word = e.2.word) :
    e' = e ∨ e.1 < e'.1 ∨ (e.1 = e'.1 ∧ e'.2.stored ≤ e.2.stored) := by
  have horder : (stream entries q).Pairwise _ := stream_order
  rw [← mem_stream, hs] at he'
  rw [hs] at horder
  rcases List.mem_append.mp he' with hpre | hpost
  · exact absurd hword (hnew e' hpre)
  · rcases List.mem_cons.mp hpost with rfl | hpost
    · exact .inl rfl
    · exact .inr ((List.pairwise_cons.mp (List.pairwise_append.mp horder).2.1).1 e' hpost)

/-- The first entry of every word in the stream has the frequency of the word. -/
def StreamBest (entries : List MiedEntry) (q : Bytes) : Prop :=
  ∀ pre e post, stream entries q = pre++e::post → (∀ x ∈ pre, x.2.word ≠ e.2.word) →
    e.2.stored = wordFreq entries q (Ime.text e.2.word)

theorem stream_best : StreamBest entries q ↔ FirstBest entries q := by
  constructor
  · intro h e he
    have hsome : ((stream entries q).find? (fun x => decide (x.2.word = e.2.word))).isSome :=
      List.find?_isSome.mpr ⟨e, (mem_stream e).mpr he, by simp⟩
    obtain ⟨e₀, hfind⟩ := Option.isSome_iff_exists.mp hsome
    obtain ⟨hp, pre, post, hs, hpre⟩ := List.find?_eq_some_iff_append.mp hfind
    have hword : e₀.2.word = e.2.word := of_decide_eq_true hp
    have hnew : ∀ x ∈ pre, x.2.word ≠ e₀.2.word := by
      intro x hx heq
      simpa [heq.trans hword] using hpre x hx
    have hmem : e₀ ∈ matching entries q := by
      rw [← mem_stream, hs]
      exact List.mem_append_right _ (List.mem_cons_self ..)
    refine ⟨e₀, hmem, hword, fun e' he' hword' => ?_⟩
    have heq : e'.2.word = e₀.2.word := hword'.trans hword.symm
    constructor
    · rcases first_least pre post e₀ e' hs hnew he' heq with rfl | hlt | ⟨hkey, -⟩
      · exact List.le_refl _
      · exact List.le_of_lt hlt
      · exact hkey ▸ List.le_refl _
    · rw [h pre e₀ post hs hnew, ← heq]
      exact stored_le e' he'
  · intro h pre e post hs hnew
    have he : e ∈ matching entries q := by
      rw [← mem_stream, hs]
      exact List.mem_append_right _ (List.mem_cons_self ..)
    obtain ⟨e₀, he₀, hword, hbest⟩ := h e he
    have hle : e₀.2.stored ≤ e.2.stored := by
      rcases first_least pre post e e₀ hs hnew he₀ hword with rfl | hlt | ⟨-, hle⟩
      · exact le_rfl
      · exact absurd hlt ((hbest e he rfl).1)
      · exact hle
    refine le_antisymm (stored_le e he) (word_freq_le _ _ fun e' he' htext => ?_)
    exact le_trans (hbest e' he' (Ime.text_injective htext)).2 hle

theorem stream_candidates : ((sortedKeys (keyToWords entries 0)).filter
    (fun ks => decide (q <+: ks))).flatMap (keyCandidates (keyToWords entries 0)) =
      (stream entries q).map (fun e => e.2.candidate) := by
  rw [stream, List.map_flatMap]
  apply List.flatMap_congr
  intro ks _
  rw [keyCandidates, List.map_map]
  rfl

theorem candidate_text (hwords : ∀ e ∈ entries, e.2.Shown) (e : MiedEntry)
    (he : e ∈ stream entries q) : e.2.candidate.word = Ime.text e.2.word := by
  rw [mem_stream, matching, List.mem_filter] at he
  exact candidate_word e.2 (hwords e he.1) (Nat.lt_succ_of_le (of_decide_eq_true he.2).2)

theorem first_candidate (hwords : ∀ e ∈ entries, e.2.Shown) :
    (∀ c, First Candidate.word ((stream entries q).map (fun e => e.2.candidate)) c →
      c.freq = wordFreq entries q c.word) ↔ StreamBest entries q := by
  constructor
  · intro h pre e post hs hnew
    have hmem : ∀ x ∈ pre++e::post, x.2.candidate.word = Ime.text x.2.word :=
      fun x hx => candidate_text hwords x (hs ▸ hx)
    have he := hmem e (List.mem_append_right _ (List.mem_cons_self ..))
    have hfirst := h e.2.candidate ⟨pre.map (fun e => e.2.candidate),
      post.map (fun e => e.2.candidate), by rw [hs, List.map_append, List.map_cons], by
        intro hin
        rw [List.map_map] at hin
        obtain ⟨x, hx, heq⟩ := List.mem_map.mp hin
        have hx' := hmem x (List.mem_append_left _ hx)
        exact hnew x hx (Ime.text_injective (hx'.symm.trans (heq.trans he)))⟩
    rw [he] at hfirst
    exact hfirst
  · rintro h c ⟨pre, post, heq, hnew⟩
    obtain ⟨spre, rest, hs, rfl, hrest⟩ := List.map_eq_append_iff.mp heq
    obtain ⟨e, spost, rfl, rfl, rfl⟩ := List.map_eq_cons_iff.mp hrest
    have hmem : ∀ x ∈ spre++e::spost, x.2.candidate.word = Ime.text x.2.word :=
      fun x hx => candidate_text hwords x (hs ▸ hx)
    have he := hmem e (List.mem_append_right _ (List.mem_cons_self ..))
    rw [he]
    refine h spre e spost hs (fun x hx hword => hnew ?_)
    have hx' := hmem x (List.mem_append_left _ hx)
    rw [List.map_map]
    exact List.mem_map.mpr ⟨x, hx, by rw [Function.comp, hx', he, hword]⟩

theorem found_words (hwords : ∀ e ∈ entries, e.2.Shown) (word : Bytes) :
    word ∈ ((matching entries q).map (fun e => Ime.text e.2.word)).dedup ↔
      word ∈ ((stream entries q).map (fun e => e.2.candidate)).map Candidate.word := by
  rw [List.mem_dedup, List.map_map, List.mem_map, List.mem_map]
  constructor
  · rintro ⟨e, he, rfl⟩
    have hs := (mem_stream e).mpr he
    exact ⟨e, hs, candidate_text hwords e hs⟩
  · rintro ⟨e, he, rfl⟩
    exact ⟨e, (mem_stream e).mp he, (candidate_text hwords e he).symm⟩

/-- A search of a built dictionary ranks the matching words by their frequencies, at every
number of results, exactly where no word has its highest frequency under a later key. -/
theorem mied_search_ranked (entries : List MiedEntry) (hwords : ∀ e ∈ entries, e.2.Shown)
    (q : Bytes) (hq : q ≠ []) (dat val : Bytes) (h : buildMied entries 0 = some (dat, val))
    (hdat : dat.length < 4294967296) (hval : val.length < 4294967296) :
    ∃ t, TrieSearcher.loadFromMemory dat val = some t ∧
      ((∀ maxResults, Lib.TopK.Best Prod.snd Prod.fst maxResults (found entries q)
        ((t.search q maxResults).map (fun c => (c.word, c.freq)))) ↔ FirstBest entries q) := by
  obtain ⟨hfits, rfl, rfl⟩ := mied_layout entries 0 dat val h
  refine ⟨_, mied_load _ hfits, ?_⟩
  have hshown : ∀ ks ∈ sortedKeys (keyToWords entries 0),
      ∀ w ∈ wordsOf (keyToWords entries 0) ks, w.Shown :=
    fun ks _ w hw => hwords _ ((mem_words_of ks w).mp hw)
  have hboard := search_board hfits ⟨hdat, hval⟩ hshown q hq
  rw [stream_candidates] at hboard
  rw [← stream_best, ← first_candidate hwords, ← best_iff _ (List.nodup_dedup _) _
    (found_words hwords) (fun c hc => by
      obtain ⟨e, he, rfl⟩ := List.mem_map.mp hc
      rw [candidate_text hwords e he]
      exact stored_le e ((mem_stream e).mp he))]
  constructor
  · intro hall cap hcap
    rw [← hboard cap hcap]
    exact hall cap
  · intro hall maxResults
    rcases Nat.eq_zero_or_pos maxResults with rfl | hpos
    · have hnone : (miedSearcher (keyToWords entries 0)).search q 0 = [] := by
        rw [TrieSearcher.search, if_pos (.inr rfl)]
      rw [hnone]
      exact ⟨fun _ hx => absurd hx List.not_mem_nil, List.nodup_nil, List.Pairwise.nil,
        (Nat.zero_min _).symm, fun _ _ _ _ hx => absurd hx List.not_mem_nil⟩
    · rw [hboard maxResults hpos]
      exact hall maxResults hpos

def lateEntries : List MiedEntry :=
  [([0x61], ⟨['w'], 1, 0⟩), ([0x61], ⟨['v'], 50, 0⟩), ([0x61, 0x62], ⟨['w'], 100, 0⟩)]

theorem full_key_ranked : ∃ dat val t, buildMied lateEntries 0 = some (dat, val) ∧
    TrieSearcher.loadFromMemory dat val = some t ∧
    ∀ maxResults, Lib.TopK.Best Prod.snd Prod.fst maxResults (found lateEntries [0x61, 0x62])
      ((t.search [0x61, 0x62] maxResults).map (fun c => (c.word, c.freq))) := by
  have hbuilt : (buildMied lateEntries 0).any
      (fun p => decide (p.1.length < 4294967296 ∧ p.2.length < 4294967296)) = true := by
    decide +kernel
  obtain ⟨⟨dat, val⟩, hbuild, hsize⟩ := (Option.any_eq_true _ _).mp hbuilt
  obtain ⟨hdat, hval⟩ := of_decide_eq_true hsize
  obtain ⟨t, hload, hiff⟩ := mied_search_ranked lateEntries
    (by simp [lateEntries, MiedWord.Shown]; decide) [0x61, 0x62] (by simp) dat val hbuild hdat hval
  exact ⟨dat, val, t, hbuild, hload, hiff.mpr (by decide +kernel)⟩

theorem late_frequency : ∃ dat val t, buildMied lateEntries 0 = some (dat, val) ∧
    TrieSearcher.loadFromMemory dat val = some t ∧
    (t.search [0x61] 2).map Candidate.word = [[0x76], [0x77]] ∧
    wordFreq lateEntries [0x61] [0x76] = 50 ∧ wordFreq lateEntries [0x61] [0x77] = 100 := by
  have hrun : (buildMied lateEntries 0).any (fun p =>
      (TrieSearcher.loadFromMemory p.1 p.2).any (fun t =>
        decide ((t.search [0x61] 2).map Candidate.word = [[0x76], [0x77]]))) = true := by
    decide +kernel
  obtain ⟨⟨dat, val⟩, hbuild, hrun⟩ := (Option.any_eq_true _ _).mp hrun
  obtain ⟨t, hload, hsearch⟩ := (Option.any_eq_true _ _).mp hrun
  exact ⟨dat, val, t, hbuild, hload, of_decide_eq_true hsearch, by decide +kernel,
    by decide +kernel⟩

end MokyaLora.GenDict
