import MokyaLora.ImeReach

/-!
# Long phrases among the candidates

From five syllables on the list starts with the characters of the first key, and words of five
or more characters are appended where there is room. Learned words push out the end of it.
-/

set_option autoImplicit false

namespace MokyaLora.Ime
open Lib.Fields Lib.Memory Lib.TopK Lib.Buckets GenDict CompositionScan
open CompositionSearcher hiding charReadings

def shownText : List Char → Bytes → Bytes
  | [], written => written
  | c::cs, written =>
    if kCandidateMaxBytes-1 < written.length+(utf8 c).length then written
    else shownText cs (written++utf8 c)

theorem shown_take (word : List Char) (written : Bytes) :
    ∃ n, shownText word written = written++text (word.take n) ∧
      ∀ m ≤ word.length, written.length+4*m < kCandidateMaxBytes → m ≤ (word.take n).length := by
  induction word generalizing written with
  | nil => exact ⟨0, (List.append_nil written).symm, fun m hm _ => hm⟩
  | cons c word ih =>
    have hc := utf8_length c
    rw [shownText]
    by_cases hcut : kCandidateMaxBytes-1 < written.length+(utf8 c).length
    · rw [if_pos hcut]
      refine ⟨0, (List.append_nil written).symm, fun m _ hm => ?_⟩
      rw [List.take_zero, List.length_nil]
      omega
    · rw [if_neg hcut]
      obtain ⟨n, hshown, hlong⟩ := ih (written++utf8 c)
      refine ⟨n+1, ?_, fun m hm hfit => ?_⟩
      · rw [hshown, List.take_succ_cons, List.append_assoc]
        rfl
      · cases m with
        | zero => exact Nat.zero_le _
        | succ m =>
          rw [List.take_succ_cons, List.length_cons]
          refine Nat.succ_le_succ (hlong m (Nat.le_of_succ_le_succ hm) ?_)
          rw [List.length_append]
          omega

theorem shown_whole (word : List Char) (written : Bytes)
    (h : (written++text word).length < kCandidateMaxBytes) :
    shownText word written = written++text word := by
  induction word generalizing written with
  | nil => exact (List.append_nil written).symm
  | cons c word ih =>
    have happ : written++text (c::word) = (written++utf8 c)++text word :=
      (List.append_assoc ..).symm
    rw [happ] at h ⊢
    have hc : ¬ kCandidateMaxBytes-1 < written.length+(utf8 c).length := by
      simp only [List.length_append] at h
      omega
    rw [shownText, if_neg hc, ih (written++utf8 c) h]

variable {raw : List RawEntry} {prefixes : List ℕ} {t : CompositionSearcher}

theorem append_shown (hd : Decodes (buildCharTableV4 raw) (dictGroups raw) prefixes t)
    (ids : List ℕ) (word : List Char)
    (hspell : ids.map (fun cid => ((buildCharTableV4 raw)[cid]?).map Prod.fst) = word.map some)
    (written : Bytes) : t.appendChars ids written = shownText word written := by
  induction ids generalizing word written with
  | nil =>
    have hnil : word = [] := by simpa using hspell.symm
    rw [hnil]
    rfl
  | cons cid ids ih =>
    cases word with
    | nil => simp at hspell
    | cons c word =>
      simp only [List.map_cons, List.cons.injEq] at hspell
      obtain ⟨p, hp, hc⟩ := Option.map_eq_some_iff.mp hspell.1
      obtain ⟨hlt, hget⟩ := List.getElem?_eq_some_iff.mp hp
      have hdata := (hd.charData cid hlt).1
      rw [hget, hc] at hdata
      rw [appendChars, shownText, hdata, ih word hspell.2]

theorem candidate_shown (hd : Decodes (buildCharTableV4 raw) (dictGroups raw) prefixes t)
    (w : WordEntry) (hw : w ∈ dictWords raw) :
    (t.wordCandidate w.stored).word = shownText w.word [] := by
  have hok := dict_words_ok raw w hw
  have happ := append_shown hd w.charIds w.word hok.spells []
  obtain ⟨n, hshown, -⟩ := shown_take w.word []
  have hcjk : ∀ c ∈ w.word.take n, isCjk c = true :=
    fun c hc => word_cjk raw w hok c (List.mem_of_mem_take hc)
  simp only [wordCandidate, Candidate.ofBytes, WordEntry.stored, happ]
  rw [hshown, List.nil_append, cstr_text _ hcjk]

/-- A word of five or more characters that the keys match under their hints. -/
structure LongMatch (raw : List RawEntry) (keys hints : Bytes) (w : WordEntry) : Prop where
  mem : w ∈ dictWords raw
  long : 5 ≤ w.word.length
  found : wordMatches (buildCharTableV4 raw) keys (some hints) w = true

/-- A candidate with the string of such a word, all of it. -/
def LongPhrase (raw : List RawEntry) (keys hints : Bytes) (c : Candidate) : Prop :=
  ∃ w, LongMatch raw keys hints w ∧ c.word = text w.word

def longWords (raw : List RawEntry) (keys hints : Bytes) : List WordEntry :=
  (dictWords raw).filter (fun w => inBuckets (-1) w &&
    wordMatches (buildCharTableV4 raw) keys (some hints) w)

/-- What the list shows of the word is the string of a word that matches. -/
def ShownWhole (raw : List RawEntry) (keys hints : Bytes) (v : WordEntry) : Prop :=
  ∃ w, LongMatch raw keys hints w ∧ shownText v.word [] = text w.word

theorem long_bucket (w : WordEntry) (hw : w ∈ dictWords raw) :
    inBuckets (-1) w = true ↔ 5 ≤ w.word.length := by
  rw [inBuckets, if_neg (by decide), if_pos rfl, decide_eq_true_iff,
    (dict_words_ok raw w hw).word_length]

theorem long_key (k : UInt8) (ks hints : Bytes) (w : WordEntry)
    (h : LongMatch raw (k::ks) hints w) : 0x20 ≤ k ∧ k < 0x38 := by
  have hok := dict_words_ok raw w h.mem
  have hmatch := h.found
  rw [wordMatches] at hmatch
  cases hrs : chosenReadings (buildCharTableV4 raw) w with
  | nil => exact absurd hrs (chosen_ne_nil _ w hok)
  | cons r rs =>
    rw [hrs, List.map_cons] at hmatch
    have hhead : r.keyseq.head? = some k := recurse_head r.stored _ k ks _ hmatch
    have hr := entry_ok raw w.word _ (.word w h.mem) r (by rw [hrs]; exact List.mem_cons_self ..)
    obtain ⟨hlo, hup⟩ := hr.key k (List.mem_of_mem_head? hhead)
    exact ⟨UInt8.le_trans (by decide) hlo, UInt8.lt_of_le_of_lt hup (by decide)⟩

theorem mem_long_words (keys hints : Bytes) (w : WordEntry) :
    w ∈ longWords raw keys hints ↔ LongMatch raw keys hints w := by
  rw [longWords, List.mem_filter, Bool.and_eq_true]
  constructor
  · rintro ⟨hmem, hlong, hfound⟩
    exact ⟨hmem, (long_bucket w hmem).mp hlong, hfound⟩
  · intro h
    exact ⟨h.mem, (long_bucket w h.mem).mpr h.long, h.found⟩

theorem fits_whole (keys hints : Bytes) (w : WordEntry) (h : LongMatch raw keys hints w)
    (hfit : (text w.word).length < kCandidateMaxBytes) : ShownWhole raw keys hints w :=
  ⟨w, h, by rw [shown_whole _ _ (by rwa [List.nil_append]), List.nil_append]⟩

theorem search_long (hd : Decodes (buildCharTableV4 raw) (dictGroups raw) prefixes t)
    (hcount : (dictWords raw).length < 4294967296) (std : DescendingSort) (k : UInt8)
    (hk : 0x20 ≤ k ∧ k < 0x38) (ks hints : Bytes) (maxResults : ℕ) (hmax : 1 ≤ maxResults) :
    ∃ ws : List WordEntry, ws.Perm (longWords raw (k::ks) hints) ∧
      t.search std (k::ks) (some hints) (-1) maxResults =
        std.sort Candidate.freq (collect Candidate.freq maxResults
          (ws.map (fun w => t.wordCandidate w.stored))) := by
  have hbyte := key_byte k hk
  let found (w : WordEntry) : Option WordEntry :=
    if inBuckets (-1) w && wordMatches (buildCharTableV4 raw) (k::ks) (some hints) w then some w
    else none
  have hat : ∀ wid, t.matchWord (t.allowedRange (-1)) (k::ks) (some hints) wid =
      ((dictWords raw)[wid]?.bind found).map (fun w => t.wordCandidate w.stored) := by
    intro wid
    cases hw : (dictWords raw)[wid]? with
    | none => exact match_word_none hd _ _ _ wid hw
    | some w =>
      rw [match_word_at hd hcount (-1) (by decide) (k::ks) (some hints) wid w hw,
        Option.bind_some]
      dsimp only [found]
      split <;> rfl
  refine ⟨(indexedIds raw (k.toNat-0x20)).filterMap (fun wid => (dictWords raw)[wid]?.bind found),
    ?_, ?_⟩
  · have hwords : longWords raw (k::ks) hints = (dictWords raw).filterMap found := by
      rw [longWords, ← List.filterMap_eq_filter]
      refine List.filterMap_congr (fun w _ => ?_)
      simp only [found, Option.guard]
    rw [hwords, ← filter_map_range (dictWords raw)]
    apply filter_map_perm _ _ (indexed_ids_nodup raw _) List.nodup_range
    · intro wid hwid
      obtain ⟨cid, -, hmem⟩ := List.mem_flatMap.mp hwid
      obtain ⟨w, hw, -⟩ := (mem_words_by_first_char _ cid wid).mp hmem
      exact List.mem_range.mpr (List.getElem?_eq_some_iff.mp hw).1
    · intro wid hwid hout
      rw [List.mem_range] at hwid
      rw [List.getElem?_eq_getElem hwid, Option.bind_some]
      refine if_neg (fun h => ?_)
      rw [Bool.and_eq_true] at h
      exact hout (indexed_match raw _ k (key_slot k hk).2 ks (some hints) wid _
        (List.getElem?_eq_getElem hwid) h.2)
  · rw [search, if_neg (by simp [hd.loaded]; omega), if_neg (by decide)]
    dsimp only
    rw [if_neg hbyte, indexed_ids hd k hk, List.map_filterMap]
    simp only [hat]

def firstChars (raw : List RawEntry) (keys hints : Bytes) : List (Bytes × ℕ) :=
  scanChars raw (keys.take 1) (some (hints.take 1))

theorem search_first (hd : Decodes (buildCharTableV4 raw) (dictGroups raw) prefixes t)
    (hcount : (dictWords raw).length < 4294967296) (std : DescendingSort) (k : UInt8)
    (hk : 0x20 ≤ k ∧ k < 0x38) (ks hints : Bytes) :
    Best Prod.snd Prod.fst kMaxCandidates (firstChars raw (k::ks) hints)
      ((t.search std [k] (some (hints.take 1)) 1 kMaxCandidates).map (fun c => (c.word, c.freq))) :=
  search_best hd hcount std k hk [] (some (hints.take 1)) 1 (fun h => absurd rfl h) (by decide)
    kMaxCandidates (by decide) (fun _ => by decide)

theorem first_char (keys hints : Bytes) (p : Bytes × ℕ) (hp : p ∈ firstChars raw keys hints) :
    ∃ c, p.1 = text [c] := by
  rw [firstChars, scanChars] at hp
  dsimp only at hp
  split at hp
  · cases hp
  · obtain ⟨q, -, hq⟩ := List.mem_filterMap.mp hp
    obtain ⟨freq, -, rfl⟩ := Option.map_eq_some_iff.mp hq
    exact ⟨q.1, by simp [text]⟩

theorem char_not_phrase (keys hints : Bytes) (p : Bytes × ℕ) (c : Candidate)
    (hp : p ∈ firstChars raw keys hints) (hc : c.word = p.1) : ¬ LongPhrase raw keys hints c := by
  rintro ⟨w, hw, hword⟩
  obtain ⟨d, hd⟩ := first_char keys hints p hp
  rw [hc, hd] at hword
  have hone := congrArg List.length (text_injective hword)
  have hlong := hw.long
  rw [List.length_singleton] at hone
  omega

/-- Behind the learned words and the characters stands what of the phrases has room. -/
theorem phrase_reached {α : Type} (P : α → Prop) (new : α → Bool) (hits chars phrases : List α)
    (hchars : ∀ p ∈ chars, ¬ P p) (room : ℕ) :
    (∃ p ∈ hits++((chars++phrases).filter new).take room, P p) ↔
      (∃ p ∈ hits, P p) ∨
        ∃ p ∈ (phrases.filter new).take (room-(chars.filter new).length), P p := by
  rw [List.filter_append, List.take_append]
  constructor
  · rintro ⟨p, hp, hlong⟩
    rcases List.mem_append.mp hp with hp | hp
    · exact .inl ⟨p, hp, hlong⟩
    rcases List.mem_append.mp hp with hp | hp
    · exact absurd hlong (hchars p (List.mem_of_mem_filter (List.mem_of_mem_take hp)))
    · exact .inr ⟨p, hp, hlong⟩
  · rintro (⟨p, hp, hlong⟩ | ⟨p, hp, hlong⟩)
    · exact ⟨p, List.mem_append_left _ hp, hlong⟩
    · exact ⟨p, List.mem_append_right _ (List.mem_append_right _ hp), hlong⟩

def learnedWords (s : ImeLogic) : List (Candidate × ℕ) :=
  s.lru.lookup s.keys (some s.hints) kMaxCandidates

section List

variable (env : Env) (cs : CompositionSearch) (s : ImeLogic)

theorem run_search_learned (henv : env.compositionSearcher = some cs) (hmode : s.mode = .smartZh)
    (hlen : s.keySeqLen ≠ 0) :
    (s.runSearch env).candidates = learnedWords s++
      ((s.searchStart.runSearchV4 cs).candidates.filter
        (fun p => !listed (learnedWords s) p.1)).take (kMaxCandidates-(learnedWords s).length) := by
  have hpos : 0 < s.keySeqLen := Nat.pos_of_ne_zero hlen
  have hret : Retains s (s.searchStart.runSearchV4 cs) := run_search_v4_retains s.searchStart cs
  have hbase := hret.base
  simp only [ImeLogic.base, Prod.mk.injEq] at hbase
  obtain ⟨hvmode, hvkeys, hvlen, hvhints, -⟩ := hbase
  have hhits : (s.searchStart.runSearchV4 cs).lru.lookup (s.searchStart.runSearchV4 cs).keys
      (some (s.searchStart.runSearchV4 cs).hints) kMaxCandidates = learnedWords s := by
    rw [learnedWords, hret.lru, ImeLogic.keys, ImeLogic.hints, hvkeys, hvlen, hvhints]
    rfl
  have hcount := (run_search_v4_candidates s.searchStart cs hpos (candidates_nil _)).count
  rw [run_search_dictionary env cs s henv hmode hlen, ImeLogic.prependLruCandidates,
    if_neg (by rw [hvmode, hvlen]; simp [hmode, hlen])]
  dsimp only
  rw [hhits]
  by_cases hnil : learnedWords s = []
  · rw [if_pos hnil, hnil]
    simp [listed, List.take_of_length_le hcount]
  · rw [if_neg hnil]

theorem v4_long_candidates (hpos : 5 ≤ s.positions cs) :
    (s.searchStart.runSearchV4 cs).candidates =
      (cs.search (s.keys.take 1) (s.hints.take 1) 1 kMaxCandidates).map (fun c => (c, 1))++
        if (cs.search (s.keys.take 1) (s.hints.take 1) 1 kMaxCandidates).length < kMaxCandidates then
          (cs.search s.keys s.hints (-1) (kMaxCandidates-
            (cs.search (s.keys.take 1) (s.hints.take 1) 1 kMaxCandidates).length)).map
              (fun c => (c, s.keySeqLen))
        else [] := by
  have hstart : s.searchStart.positions cs = s.positions cs := rfl
  rw [ImeLogic.runSearchV4, hstart]
  dsimp only
  rw [if_neg (by omega), if_neg (by omega), List.length_map]
  rfl

theorem positions_nil (std : DescendingSort) (t : CompositionSearcher) (hk : s.keys = []) :
    s.positions (.ofDictionary std t) = 0 := by
  rw [ImeLogic.positions, hk]
  exact if_pos rfl

/-- The candidates are single characters and behind them the long words that match, ranked
by frequency, as many as the characters leave room for. -/
structure Split (raw : List RawEntry) (t : CompositionSearcher) (std : DescendingSort)
    (keys hints : Bytes) (cands chars phrases : List (Candidate × ℕ)) : Prop where
  whole : cands = chars++phrases
  single : ∀ p ∈ chars, ¬ LongPhrase raw keys hints p.1
  words : (firstChars raw keys hints).length < kMaxCandidates →
    (chars.map (fun p => p.1.word)).Perm ((firstChars raw keys hints).map Prod.fst)
  full : kMaxCandidates ≤ (firstChars raw keys hints).length → phrases = []
  ranked : (firstChars raw keys hints).length < kMaxCandidates →
    ∃ (ws : List WordEntry) (n : ℕ), ws.Perm (longWords raw keys hints) ∧
      phrases = (std.sort Candidate.freq (collect Candidate.freq
        (kMaxCandidates-(firstChars raw keys hints).length)
          (ws.map (fun w => t.wordCandidate w.stored)))).map (fun c => (c, n))

theorem v4_split (hd : Decodes (buildCharTableV4 raw) (dictGroups raw) prefixes t)
    (hcount : (dictWords raw).length < 4294967296) (std : DescendingSort)
    (hpos : 5 ≤ s.positions (.ofDictionary std t))
    (hmatch : ∃ w, LongMatch raw s.keys s.hints w) :
    ∃ chars phrases, Split raw t std s.keys s.hints
      (s.searchStart.runSearchV4 (.ofDictionary std t)).candidates chars phrases := by
  have hkeys : ∃ k ks, s.keys = k::ks := by
    cases hk : s.keys with
    | nil =>
      rw [positions_nil s std t hk] at hpos
      exact absurd hpos (by decide)
    | cons k ks => exact ⟨k, ks, rfl⟩
  obtain ⟨k, ks, hk⟩ := hkeys
  obtain ⟨w, hw⟩ := hmatch
  rw [hk] at hw
  have hrange := long_key k ks s.hints w hw
  have hbest := search_first hd hcount std k hrange ks s.hints
  have hcands := v4_long_candidates (.ofDictionary std t) s hpos
  have hchars : (CompositionSearch.ofDictionary std t).search (s.keys.take 1) (s.hints.take 1) 1
      kMaxCandidates = t.search std [k] (some (s.hints.take 1)) 1 kMaxCandidates := by
    rw [hk]
    rfl
  rw [hchars] at hcands
  rw [hk]
  generalize t.search std [k] (some (s.hints.take 1)) 1 kMaxCandidates = found at hbest hcands
  have hlen : found.length = min kMaxCandidates (firstChars raw (k::ks) s.hints).length := by
    rw [← hbest.length, List.length_map]
  refine ⟨_, _, hcands, ?_, ?_, ?_, ?_⟩
  · intro p hp
    obtain ⟨c, hc, rfl⟩ := List.mem_map.mp hp
    exact char_not_phrase (k::ks) s.hints _ c (hbest.mem _ (List.mem_map_of_mem hc)) rfl
  · intro hroom
    have hsub : (found.map (fun c => (c.word, c.freq))).Subperm (firstChars raw (k::ks) s.hints) :=
      List.Nodup.subperm (List.Nodup.of_map Prod.fst hbest.nodup) hbest.mem
    have hperm := (hsub.perm_of_length_le (by rw [hbest.length]; omega)).map Prod.fst
    rw [List.map_map] at hperm ⊢
    exact hperm
  · intro hfull
    exact if_neg (by omega)
  · intro hroom
    have hcap : found.length = (firstChars raw (k::ks) s.hints).length := by omega
    obtain ⟨ws, hperm, hsearch⟩ := search_long hd hcount std k hrange ks s.hints
      (kMaxCandidates-(firstChars raw (k::ks) s.hints).length) (Nat.sub_pos_of_lt hroom)
    refine ⟨ws, s.keySeqLen, hperm, ?_⟩
    rw [hcap, if_pos hroom, ← hsearch, hk]
    rfl

end List

def LearnedPhrase (raw : List RawEntry) (s : ImeLogic) : Prop :=
  ∃ p ∈ learnedWords s, LongPhrase raw s.keys s.hints p.1

def otherChars (raw : List RawEntry) (s : ImeLogic) : List Bytes :=
  ((firstChars raw s.keys s.hints).map Prod.fst).filter
    (fun word => !(learnedWords s).any (fun p => decide (p.1.word = word)))

def learned (s : ImeLogic) (v : WordEntry) : Bool :=
  (learnedWords s).any (fun p => decide (p.1.word = shownText v.word []))

/-- The places that the characters of the first key leave for phrases. -/
def phraseRoom (raw : List RawEntry) (s : ImeLogic) : ℕ :=
  kMaxCandidates-(firstChars raw s.keys s.hints).length

def restRoom (raw : List RawEntry) (s : ImeLogic) : ℕ :=
  kMaxCandidates-(learnedWords s).length-(otherChars raw s).length

def wordFreq (v : WordEntry) : ℕ := v.stored.freq

/-- A word that is shown whole, where there is room for the words as frequent as it. -/
structure Surfaces (raw : List RawEntry) (s : ImeLogic) (v : WordEntry) : Prop where
  found : LongMatch raw s.keys s.hints v
  whole : ShownWhole raw s.keys s.hints v
  kept : asHigh wordFreq (fun _ => true) (longWords raw s.keys s.hints) v ≤ phraseRoom raw s
  front : asHigh wordFreq (fun u => !learned s u) (longWords raw s.keys s.hints) v ≤ restRoom raw s

theorem Surfaces.phraseRoom_pos {raw : List RawEntry} {s : ImeLogic} {v : WordEntry}
    (h : Surfaces raw s v) : 0 < phraseRoom raw s := by
  refine lt_of_lt_of_le (List.countP_pos_iff.mpr ⟨v, (mem_long_words _ _ v).mpr h.found, ?_⟩) h.kept
  simp

/-- A word that is shown whole, where the more frequent ones leave room. -/
structure MaySurface (raw : List RawEntry) (s : ImeLogic) (v : WordEntry) : Prop where
  found : LongMatch raw s.keys s.hints v
  whole : ShownWhole raw s.keys s.hints v
  fresh : learned s v = false
  kept : higher wordFreq (fun _ => true) (longWords raw s.keys s.hints) v < phraseRoom raw s
  front : higher wordFreq (fun u => !learned s u) (longWords raw s.keys s.hints) v < restRoom raw s

def tapped (t : CompositionSearcher) (keys : Bytes) : ImeLogic :=
  (keys.map tapEvent).foldl (fun s ev => (s.processKey (dictionaryEnv .stable t) ev).1) .init

theorem tapped_typing (t : CompositionSearcher) (keys : Bytes)
    (hkeys : ∀ b ∈ keys, 0x21 ≤ b ∧ b ≤ 0x34) (hlen : keys.length ≤ kMaxKeySeq) :
    Typing (.ofDictionary .stable t) keys (tapped t keys) := by
  have hidle := typing_idle (.ofDictionary .stable t) .init idle_init
  exact typing_taps (dictionaryEnv .stable t) _ .init rfl keys _ (tap_events keys hkeys) [] hidle hlen

/-- The characters from 一 on, all with the same reading, and a phrase of the first one. -/
def crowd (n : ℕ) : List RawEntry :=
  (List.range n).map (fun i => ⟨[Char.ofNat (0x4E00+i)], 1, ['ㄅ', 'ㄚ']⟩)++
    [⟨['一', '一', '一', '一', '一'], 1,
      ['ㄅ', 'ㄚ', ' ', 'ㄅ', 'ㄚ', ' ', 'ㄅ', 'ㄚ', ' ', 'ㄅ', 'ㄚ', ' ', 'ㄅ', 'ㄚ']⟩]

def crowdTable (n : ℕ) : CharTable :=
  (List.range n).map (fun i => (Char.ofNat (0x4E00+i), [⟨[0x21, 0x24], [0, 1], 1, 1⟩]))

def crowdPhrase : WordEntry := ⟨['一', '一', '一', '一', '一'], [0, 0, 0, 0, 0], [0, 0, 0, 0, 0], 1, 1⟩

def crowdKeys : Bytes := List.replicate 5 0x21

theorem crowd_keys (b : UInt8) (hb : b ∈ crowdKeys) : 0x21 ≤ b ∧ b ≤ 0x34 := by
  rw [List.eq_of_mem_replicate hb]
  decide

section Crowd

variable (n : ℕ)

theorem crowd_match (htable : buildCharTableV4 (crowd n) = crowdTable n)
    (hmem : crowdPhrase ∈ dictWords (crowd n))
    (hfound : wordMatches (crowdTable n) crowdKeys (some (List.replicate 5 kHintAny)) crowdPhrase =
      true) (cs : CompositionSearch) (s : ImeLogic) (hs : Typing cs crowdKeys s) :
    LongMatch (crowd n) s.keys s.hints crowdPhrase where
  mem := hmem
  long := by decide
  found := by
    rw [htable, hs.keys, hs.hints]
    exact hfound

theorem crowd_positions (hd : Decodes (buildCharTableV4 (crowd n)) (dictGroups (crowd n)) prefixes t)
    (hfive : { CompositionSearcher.init with prefixTable := prefixes }.countSyllables crowdKeys = 5)
    (std : DescendingSort) (cs : CompositionSearch) (s : ImeLogic) (hs : Typing cs crowdKeys s) :
    5 ≤ s.positions (.ofDictionary std t) := by
  have hcount : (CompositionSearch.ofDictionary std t).countSyllables s.keys = 5 := by
    rw [hs.keys, ← hfive]
    exact count_table t { CompositionSearcher.init with prefixTable := prefixes } hd.prefixTable _
  rw [ImeLogic.positions, hcount, if_neg (by decide)]

end Crowd

theorem crowd_table : buildCharTableV4 (crowd 100) = crowdTable 100 := by decide +kernel

section Room

variable (raw) (s : ImeLogic) (std : DescendingSort) (ws : List WordEntry) (n : ℕ)

def reachedPhrases (t : CompositionSearcher) : List (Candidate × ℕ) :=
  (((std.sort Candidate.freq (collect Candidate.freq (phraseRoom raw s)
    (ws.map (fun w => t.wordCandidate w.stored)))).map (fun c => (c, n))).filter
      (fun p => !listed (learnedWords s) p.1)).take (restRoom raw s)

variable {raw s ws}

theorem mem_reached (p : Candidate × ℕ) : p ∈ reachedPhrases raw s std ws n t ↔
    p.2 = n ∧ p.1 ∈ ((std.sort Candidate.freq (collect Candidate.freq (phraseRoom raw s)
      (ws.map (fun w => t.wordCandidate w.stored)))).filter
        (fun c => !listed (learnedWords s) c)).take (restRoom raw s) := by
  rw [reachedPhrases, List.filter_map, ← List.map_take, List.mem_map]
  constructor
  · rintro ⟨c, hc, rfl⟩
    exact ⟨rfl, hc⟩
  · rintro ⟨rfl, hc⟩
    exact ⟨p.1, hc, rfl⟩

variable (hd : Decodes (buildCharTableV4 raw) (dictGroups raw) prefixes t)
  (hperm : ws.Perm (longWords raw s.keys s.hints))
include hd

theorem listed_learned (v : WordEntry) (hv : v ∈ dictWords raw) :
    listed (learnedWords s) (t.wordCandidate v.stored) = learned s v := by
  rw [listed, learned, candidate_shown hd v hv]

theorem shown_phrase (v : WordEntry) (hv : v ∈ dictWords raw) :
    LongPhrase raw s.keys s.hints (t.wordCandidate v.stored) ↔ ShownWhole raw s.keys s.hints v := by
  rw [LongPhrase, ShownWhole, candidate_shown hd v hv]

include hperm

theorem new_words : ∀ v ∈ ws,
    (fun c => !listed (learnedWords s) c) (t.wordCandidate v.stored) = !learned s v := by
  intro v hv
  have hmem := ((mem_long_words _ _ v).mp (hperm.mem_iff.mp hv)).mem
  exact congrArg (!·) (listed_learned hd v hmem)

theorem surfaces_reached (v : WordEntry) (h : Surfaces raw s v) (hnew : learned s v = false) :
    ∃ p ∈ reachedPhrases raw s std ws n t, LongPhrase raw s.keys s.hints p.1 := by
  have hv : v ∈ ws := hperm.mem_iff.mpr ((mem_long_words _ _ v).mpr h.found)
  have hkept : asHigh Candidate.freq (fun _ => true) (ws.map (fun w => t.wordCandidate w.stored))
      (t.wordCandidate v.stored) ≤ phraseRoom raw s := by
    rw [asHigh, List.countP_map]
    exact (as_high_perm wordFreq (fun _ => true) hperm v).trans_le h.kept
  have hfront : asHigh Candidate.freq (fun c => !listed (learnedWords s) c)
      (ws.map (fun w => t.wordCandidate w.stored)) (t.wordCandidate v.stored) ≤ restRoom raw s := by
    rw [asHigh, List.countP_map]
    exact ((as_high_congr wordFreq (new_words hd hperm) v).trans
      (as_high_perm wordFreq _ hperm v)).trans_le h.front
  refine ⟨(t.wordCandidate v.stored, n), (mem_reached std n _).mpr ⟨rfl, ?_⟩,
    (shown_phrase hd v h.found.mem).mpr h.whole⟩
  refine kept_of_few std h.phraseRoom_pos _ (List.mem_map_of_mem hv) ?_ hkept hfront
  rw [listed_learned hd v h.found.mem, hnew]
  rfl

theorem reached_surfaces (hcap : 0 < phraseRoom raw s) (p : Candidate × ℕ)
    (hp : p ∈ reachedPhrases raw s std ws n t) (hlong : LongPhrase raw s.keys s.hints p.1) :
    ∃ v, MaySurface raw s v := by
  obtain ⟨-, hmem⟩ := (mem_reached std n p).mp hp
  obtain ⟨hin, hnew, hkept, hfront⟩ := few_of_kept std hcap _ hmem
  obtain ⟨v, hv, hword⟩ := List.mem_map.mp hin
  have hfound := (mem_long_words _ _ v).mp (hperm.mem_iff.mp hv)
  rw [← hword] at hlong hnew hkept hfront
  rw [higher, List.countP_map] at hkept hfront
  refine ⟨v, hfound, (shown_phrase hd v hfound.mem).mp hlong, ?_, ?_, ?_⟩
  · rw [listed_learned hd v hfound.mem] at hnew
    simpa using hnew
  · exact (higher_perm wordFreq (fun _ => true) hperm v).symm.trans_lt hkept
  · exact ((higher_congr wordFreq (new_words hd hperm) v).trans
      (higher_perm wordFreq _ hperm v)).symm.trans_lt hfront

end Room

theorem Split.reached {raw : List RawEntry} {t : CompositionSearcher} {std : DescendingSort}
    {s : ImeLogic} {cands chars phrases : List (Candidate × ℕ)}
    (h : Split raw t std s.keys s.hints cands chars phrases)
    (hfew : (firstChars raw s.keys s.hints).length < kMaxCandidates) :
    ∃ (ws : List WordEntry) (n : ℕ), ws.Perm (longWords raw s.keys s.hints) ∧
      (phrases.filter (fun p => !listed (learnedWords s) p.1)).take
        (kMaxCandidates-(learnedWords s).length-
          (chars.filter (fun p => !listed (learnedWords s) p.1)).length) =
        reachedPhrases raw s std ws n t := by
  obtain ⟨ws, n, hperm, hphrases⟩ := h.ranked hfew
  have hothers : (chars.filter (fun p => !listed (learnedWords s) p.1)).length =
      (otherChars raw s).length := by
    rw [otherChars, ← ((h.words hfew).filter _).length_eq, List.filter_map, List.length_map]
    rfl
  refine ⟨ws, n, hperm, ?_⟩
  rw [hothers, hphrases]
  rfl

theorem may_surface_distinct (raw : List RawEntry) (s : ImeLogic)
    (hdistinct : ((longWords raw s.keys s.hints).map wordFreq).Nodup) (v : WordEntry)
    (h : MaySurface raw s v) : Surfaces raw s v where
  found := h.found
  whole := h.whole
  kept := (as_high_le _ hdistinct v).trans h.kept
  front := (as_high_le _ hdistinct v).trans h.front

end MokyaLora.Ime
