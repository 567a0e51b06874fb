import MokyaLora.CompositionMatch
import MokyaLora.CompositionScan
import MokyaLora.ImeReachable
import MokyaLora.SyllableCount

/-!
# Which words can be typed

The keys of a word are matched by the word. It is listed when its number of
characters is within two of the number of syllables counted in the keys, and the
matches are few enough for the list.
-/

set_option autoImplicit false

namespace MokyaLora.Ime
open Lib.Fields Lib.Memory Lib.TopK GenDict CompositionScan
open CompositionSearcher hiding charReadings

def Open (hints : Bytes) : Prop := ∀ h ∈ hints, h = kPhonemeHintAny

theorem pos_ok_open (packed : ℕ) (hints : Bytes) (h : Open hints) (n : ℕ) :
    posOk packed (some hints) n = true := by
  simp only [posOk, List.all_eq_true, List.mem_range, Bool.or_eq_true, beq_iff_eq]
  intro k _
  left
  rw [List.getD_eq_getElem?_getD]
  cases hk : hints[k]? with
  | none => rfl
  | some hint => exact h hint (List.mem_of_getElem? hk)

theorem recurse_open (views : List (Option ReadingView)) (keys hints : Bytes) (h : Open hints) :
    compositionRecurse views keys (some hints) = compositionRecurse views keys none := by
  induction views generalizing keys hints with
  | nil => cases keys <;> simp [compositionRecurse]
  | cons v views ih =>
    cases keys with
    | nil => simp [compositionRecurse]
    | cons k ks =>
      cases v with
      | none => simp [compositionRecurse]
      | some r =>
        rw [compositionRecurse, compositionRecurse]
        congr 1
        funext plen
        dsimp only
        have hdrop : Open (hints.drop (consumedKeys r (k::ks) plen)) :=
          fun hint hmem => h hint (List.mem_of_mem_drop hmem)
        rw [pos_ok_open _ hints h, pos_ok_open _ hints h, Option.map_some, Option.map_none,
          ih _ _ hdrop]
        simp [posOk]

theorem scan_open (raw : List RawEntry) (keys hints : Bytes) (h : Open hints) (target : ℤ) :
    scan raw keys (some hints) target = scan raw keys none target := by
  have hread : ∀ eff tone1, readingMatches eff tone1 (some hints) = readingMatches eff tone1 none := by
    intro eff tone1
    funext r
    rw [readingMatches, readingMatches, pos_ok_open _ hints h]
    rfl
  have hchar : ∀ eff tone1, charMatch eff tone1 (some hints) = charMatch eff tone1 none := by
    intro eff tone1
    funext p
    rw [charMatch, charMatch, hread]
  simp only [scan, scanChars, scanWords, wordMatches, recurse_open _ _ hints h, hchar]

theorem no_space (rs : List Reading) (hr : ∀ r ∈ rs, ReadingOk r) :
    0x20 ∉ (rs.map Reading.keyseq).flatten := by
  intro hmem
  obtain ⟨ks, hks, hmem⟩ := List.mem_flatten.mp hmem
  obtain ⟨r, hmem', rfl⟩ := List.mem_map.mp hks
  exact absurd ((hr r hmem').key _ hmem).1 (by decide)

theorem whole_tried (klen : ℕ) (h : 1 ≤ klen) : klen ∈ triedLengths klen := by
  have hkeep : ∀ ps tried : List ℕ, klen ∈ tried →
      klen ∈ ps.foldl (fun tried p => if p < 1 ∨ klen < p ∨ p ∈ tried then tried else tried++[p])
        tried := by
    intro ps
    induction ps with
    | nil => exact fun _ hmem => hmem
    | cons p ps ih =>
      intro tried hmem
      rw [List.foldl_cons]
      apply ih
      split
      · exact hmem
      · exact List.mem_append_left _ hmem
  rw [triedLengths, List.foldl_cons]
  apply hkeep
  rw [if_neg (by simp; omega)]
  simp

theorem recurse_own (rs : List Reading) (hr : ∀ r ∈ rs, ReadingOk r) :
    compositionRecurse (rs.map (fun r => some r.stored)) (rs.map Reading.keyseq).flatten none =
      true := by
  induction rs with
  | nil => rfl
  | cons r rs ih =>
    have hok := hr r (by simp)
    have hrest := ih (fun q hq => hr q (by simp [hq]))
    have hpos := List.length_pos_iff.mpr hok.ne_nil
    rw [List.map_cons, List.map_cons, List.flatten_cons]
    cases hkeys : r.keyseq++(rs.map Reading.keyseq).flatten with
    | nil => simp [compositionRecurse]
    | cons k ks =>
      rw [compositionRecurse, List.any_eq_true]
      refine ⟨r.keyseq.length, whole_tried _ hpos, ?_⟩
      dsimp only
      rw [← hkeys, if_neg (by rw [List.length_append]; omega), if_pos (by simp [Reading.stored, posOk])]
      have hspace := no_space (r::rs) hr
      rw [List.map_cons, List.flatten_cons] at hspace
      rw [consumed_keys _ _ hspace]
      rw [List.drop_left]
      exact hrest

/-- A word with readings it can be typed by: a character with one of its readings,
or a longer word with those it was entered with. -/
inductive Entry (raw : List RawEntry) : List Char → List Reading → Prop
  | char (p : Char × List Reading) (hp : p ∈ buildCharTableV4 raw) (r : Reading) (hr : r ∈ p.2) :
      Entry raw [p.1] [r]
  | word (w : WordEntry) (hw : w ∈ dictWords raw) :
      Entry raw w.word (chosenReadings (buildCharTableV4 raw) w)

def typedKeys (rs : List Reading) : Bytes := (rs.map Reading.keyseq).flatten

theorem chosen_reading (table : CharTable) (w : WordEntry) (r : Reading)
    (hr : r ∈ chosenReadings table w) : ∃ p ∈ table, r ∈ p.2 := by
  obtain ⟨q, -, hq⟩ := List.mem_filterMap.mp hr
  have hmem := List.mem_of_getElem? hq
  rw [charReadings] at hmem
  cases hp : table[q.1]? with
  | none =>
    rw [hp] at hmem
    cases hmem
  | some p =>
    rw [hp] at hmem
    exact ⟨p, List.mem_of_getElem? hp, hmem⟩

theorem chosen_ne_nil (table : CharTable) (w : WordEntry) (hw : WordOk table w) :
    chosenReadings table w ≠ [] := by
  intro hnil
  have hnone := List.filterMap_eq_nil_iff.mp hnil
  have hlen := hw.length
  have hidxs := hw.idxs
  have hpos : 0 < (w.charIds.zip w.readingIdxs).length := by
    rw [List.length_zip]
    omega
  have hmem := List.getElem_mem hpos
  have h := hnone _ hmem
  rw [List.getElem?_eq_getElem (hw.reading _ hmem)] at h
  cases h

theorem entry_readings (raw : List RawEntry) (word : List Char) (rs : List Reading)
    (h : Entry raw word rs) :
    rs ≠ [] ∧ ∀ r ∈ rs, ∃ p ∈ buildCharTableV4 raw, r ∈ p.2 := by
  cases h with
  | char p hp r hr =>
    refine ⟨List.cons_ne_nil _ _, fun q hq => ?_⟩
    rw [List.mem_singleton.mp hq]
    exact ⟨p, hp, hr⟩
  | word w hw =>
    exact ⟨chosen_ne_nil _ w (dict_words_ok raw w hw), fun r hr => chosen_reading _ w r hr⟩

theorem entry_ok (raw : List RawEntry) (word : List Char) (rs : List Reading)
    (h : Entry raw word rs) : ∀ r ∈ rs, ReadingOk r := by
  intro r hr
  obtain ⟨p, hp, hmem⟩ := (entry_readings raw word rs h).2 r hr
  exact (char_table_ok raw p hp).reading r hmem

theorem entry_keys (raw : List RawEntry) (word : List Char) (rs : List Reading)
    (h : Entry raw word rs) : ∃ k ks, typedKeys rs = k::ks ∧ 0x21 ≤ k ∧ k ≤ 0x34 ∧
      ∃ p ∈ buildCharTableV4 raw, ∃ r ∈ p.2, r.keyseq.head? = some k := by
  obtain ⟨hne, hall⟩ := entry_readings raw word rs h
  cases rs with
  | nil => exact absurd rfl hne
  | cons r rs =>
    obtain ⟨p, hp, hr⟩ := hall r (by simp)
    have hok := entry_ok raw word _ h r (by simp)
    cases hkeys : r.keyseq with
    | nil => exact absurd hkeys hok.ne_nil
    | cons k ks =>
      have hk := hok.key k (by rw [hkeys]; simp)
      refine ⟨k, ks++(rs.map Reading.keyseq).flatten, ?_, hk.1, hk.2, p, hp, r, hr, ?_⟩
      · rw [typedKeys, List.map_cons, List.flatten_cons, hkeys, List.cons_append]
      · rw [hkeys, List.head?_cons]

theorem char_found (raw : List RawEntry) (p : Char × List Reading)
    (hp : p ∈ buildCharTableV4 raw) (r : Reading) (hr : r ∈ p.2) :
    ∃ freq, (text [p.1], freq) ∈ scan raw (typedKeys [r]) none 1 := by
  have hok := (char_table_ok raw p hp).reading r hr
  have hkeys : typedKeys [r] = r.keyseq := by simp [typedKeys]
  have heff : effectiveKeys r.keyseq = (r.keyseq, false) := by
    have hspace := no_space [r] (by simpa using hok)
    rw [← typedKeys, hkeys] at hspace
    rw [effectiveKeys, if_neg]
    exact fun hlast => hspace (List.mem_of_getLast? hlast)
  have hmatch : readingMatches r.keyseq false none r.stored = true := by
    simp [readingMatches, Reading.stored, posOk]
  have hmem : r.stored.freq ∈ ((p.2.map Reading.stored).filter
      (readingMatches r.keyseq false none)).map ReadingView.freq :=
    List.mem_map_of_mem (List.mem_filter.mpr ⟨List.mem_map_of_mem hr, hmatch⟩)
  obtain ⟨freq, hfreq⟩ := Option.isSome_iff_exists.mp (List.isSome_max?_of_mem hmem)
  refine ⟨freq, ?_⟩
  rw [hkeys, scan, if_pos rfl, scanChars, heff]
  dsimp only
  rw [if_neg hok.ne_nil]
  refine List.mem_filterMap.mpr ⟨p, hp, ?_⟩
  rw [charMatch, hfreq, Option.map_some]
  simp [text]

theorem word_found (raw : List RawEntry) (w : WordEntry) (hw : w ∈ dictWords raw) :
    ∃ freq, (text w.word, freq) ∈
      scan raw (typedKeys (chosenReadings (buildCharTableV4 raw) w)) none w.word.length := by
  have hok := dict_words_ok raw w hw
  have hlen := hok.word_length
  have hpos := hok.length
  refine ⟨w.stored.freq, ?_⟩
  rw [scan, if_neg (by omega), scanWords]
  refine List.mem_map.mpr ⟨w, List.mem_filter.mpr ⟨(dict_words_perm raw).mem_iff.mp hw, ?_⟩, rfl⟩
  rw [Bool.and_eq_true]
  constructor
  · rw [inBuckets, if_neg (by omega), if_neg (by omega), hlen, decide_eq_true_iff]
  · exact recurse_own _ (entry_ok raw _ _ (.word w hw))

theorem entry_found (raw : List RawEntry) (word : List Char) (rs : List Reading)
    (h : Entry raw word rs) :
    1 ≤ word.length ∧ ∃ freq, (text word, freq) ∈ scan raw (typedKeys rs) none word.length := by
  cases h with
  | char p hp r hr => exact ⟨le_refl _, char_found raw p hp r hr⟩
  | word w hw =>
    refine ⟨?_, word_found raw w hw⟩
    have hok := dict_words_ok raw w hw
    have hlen := hok.length
    have hword := hok.word_length
    omega

def CompositionSearch.ofDictionary (std : DescendingSort) (t : CompositionSearcher) :
    CompositionSearch where
  search keys hints target maxResults := t.search std keys (some hints) target maxResults
  countSyllables := t.countSyllables
  atMost keys hints := t.search_length std keys (some hints)

theorem listed_iff (cands : List (Candidate × ℕ)) (c : Candidate) :
    listed cands c = true ↔ ∃ p ∈ cands, p.1.word = c.word := by
  simp [listed]

theorem merge_listed (new : List Candidate) (cands : List (Candidate × ℕ)) (n : ℕ)
    (h : cands.length+new.length ≤ kMaxCandidates) :
    (mergeCandidates cands new n).length ≤ cands.length+new.length ∧
    (∀ c, listed cands c = true → listed (mergeCandidates cands new n) c = true) ∧
    ∀ c ∈ new, listed (mergeCandidates cands new n) c = true := by
  induction new generalizing cands with
  | nil => simp [mergeCandidates]
  | cons c new ih =>
    rw [List.length_cons] at h ⊢
    rw [mergeCandidates, List.foldl_cons, ← mergeCandidates]
    split
    · have hstep := ih (cands++[(c, n)]) (by simp only [List.length_append, List.length_singleton]; omega)
      obtain ⟨hlen, hold, hnew⟩ := hstep
      have hkeep : ∀ d, listed cands d = true → listed (cands++[(c, n)]) d = true := by
        intro d hd
        obtain ⟨p, hp, hw⟩ := (listed_iff cands d).mp hd
        exact (listed_iff _ d).mpr ⟨p, List.mem_append_left _ hp, hw⟩
      have hc : listed (cands++[(c, n)]) c = true :=
        (listed_iff _ c).mpr ⟨(c, n), by simp, rfl⟩
      refine ⟨?_, fun d hd => hold d (hkeep d hd), fun d hd => ?_⟩
      · rw [List.length_append, List.length_singleton] at hlen
        omega
      · rcases List.mem_cons.mp hd with rfl | hd
        · exact hold d hc
        · exact hnew d hd
    · rename_i hskip
      obtain ⟨hlen, hold, hnew⟩ := ih cands (by omega)
      have hc : listed cands c = true := by
        by_contra hno
        exact hskip ⟨by omega, by simpa using hno⟩
      refine ⟨by omega, hold, fun d hd => ?_⟩
      rcases List.mem_cons.mp hd with rfl | hd
      · exact hold d hc
      · exact hnew d hd

section Window

variable (s : ImeLogic) (cs : CompositionSearch)

/-- The number of words that a neighbouring bucket has to offer. -/
def offered (t : ℤ) : ℕ :=
  if 1 ≤ t ∧ t ≤ 4 then (cs.search s.keys s.hints t kMaxCandidates).length else 0

theorem adjacent_listed (ts : List ℤ) (cands : List (Candidate × ℕ))
    (h : cands.length+ts.foldr (fun t n => offered s cs t+n) 0 < kMaxCandidates) :
    (∀ c, listed cands c = true → listed (ts.foldl (s.adjacentBucket cs) cands) c = true) ∧
    ∀ t ∈ ts, 1 ≤ t → t ≤ 4 → ∀ c ∈ cs.search s.keys s.hints t kMaxCandidates,
      listed (ts.foldl (s.adjacentBucket cs) cands) c = true := by
  induction ts generalizing cands with
  | nil => simp
  | cons t ts ih =>
    rw [List.foldr_cons] at h
    rw [List.foldl_cons]
    by_cases ht : 1 ≤ t ∧ t ≤ 4
    · have hoff : offered s cs t = (cs.search s.keys s.hints t kMaxCandidates).length := if_pos ht
      have hstep : s.adjacentBucket cs cands t =
          mergeCandidates cands (cs.search s.keys s.hints t kMaxCandidates) s.keySeqLen := by
        rw [ImeLogic.adjacentBucket, if_neg]
        omega
      obtain ⟨hlen, hold, hnew⟩ := merge_listed (cs.search s.keys s.hints t kMaxCandidates) cands
        s.keySeqLen (by omega)
      rw [hstep]
      obtain ⟨hkeep, hrest⟩ := ih _ (lt_of_le_of_lt (Nat.add_le_add_right hlen _) (by omega))
      refine ⟨fun c hc => hkeep c (hold c hc), fun u hu hlo hup c hc => ?_⟩
      rcases List.mem_cons.mp hu with rfl | hu
      · exact hkeep c (hnew c hc)
      · exact hrest u hu hlo hup c hc
    · have hstep : s.adjacentBucket cs cands t = cands := by
        rw [ImeLogic.adjacentBucket, if_pos]
        omega
      rw [hstep]
      obtain ⟨hkeep, hrest⟩ := ih cands (by omega)
      refine ⟨hkeep, fun u hu hlo hup c hc => ?_⟩
      rcases List.mem_cons.mp hu with rfl | hu
      · exact absurd ⟨hlo, hup⟩ ht
      · exact hrest u hu hlo hup c hc

theorem window_listed (p : ℕ) (hp : s.positions cs = p) (hrange : 1 ≤ p ∧ p ≤ 4)
    (hfew : offered s cs 1+offered s cs 2+offered s cs 3+offered s cs 4 < kMaxCandidates)
    (len : ℕ) (hlen : 1 ≤ len ∧ len ≤ 4) (hnear : len ≤ p+2 ∧ p ≤ len+2) (c : Candidate)
    (hc : c ∈ cs.search s.keys s.hints len kMaxCandidates) :
    listed (s.runSearchV4 cs).candidates c = true := by
  have hoff : offered s cs p = (cs.search s.keys s.hints p kMaxCandidates).length :=
    if_pos (by omega)
  have hsum : offered s cs p+[(p : ℤ)+1, (p : ℤ)-1, (p : ℤ)+2, (p : ℤ)-2].foldr
      (fun t n => offered s cs t+n) 0 < kMaxCandidates := by
    have hout : ∀ t : ℤ, t < 1 ∨ 4 < t → offered s cs t = 0 := fun t ht => if_neg (by omega)
    have hzero := hout 0 (by omega)
    have hneg := hout (-1) (by omega)
    have hfive := hout 5 (by omega)
    have hsix := hout 6 (by omega)
    simp only [List.foldr_cons, List.foldr_nil]
    have hcases : p = 1 ∨ p = 2 ∨ p = 3 ∨ p = 4 := by omega
    rcases hcases with rfl | rfl | rfl | rfl
    all_goals
      simp only [Int.cast_ofNat_Int, Int.reduceAdd, Int.sub_self, Int.reduceSub, Int.reduceNeg]
      omega
  unfold ImeLogic.runSearchV4
  rw [hp]
  dsimp only
  rw [if_neg (by omega), if_pos hrange.2]
  dsimp only
  obtain ⟨hkeep, hall⟩ := adjacent_listed s cs [(p : ℤ)+1, (p : ℤ)-1, (p : ℤ)+2, (p : ℤ)-2]
    ((cs.search s.keys s.hints p kMaxCandidates).map (fun c => (c, s.keySeqLen)))
    (by rw [List.length_map, ← hoff]; exact hsum)
  by_cases heq : len = p
  · apply hkeep
    rw [heq] at hc
    exact (listed_iff _ c).mpr ⟨(c, s.keySeqLen), List.mem_map_of_mem hc, rfl⟩
  · refine hall len ?_ (by omega) (by omega) c hc
    simp only [List.mem_cons, List.not_mem_nil, or_false]
    omega

end Window

/-- Short taps of the keys: presses without the flag of a long press, with
releases in between. -/
inductive Taps : Bytes → List KeyEvent → Prop
  | nil : Taps [] []
  | press (slot : ℕ) (ev : KeyEvent) (hslot : keycodeToInputSlot ev.keycode = some slot)
      (hpressed : ev.pressed = true) (hshort : ev.flags &&& keyFlagLongPress = 0) (keys : Bytes)
      (evs : List KeyEvent) (h : Taps keys evs) : Taps (slotByte slot::keys) (ev::evs)
  | release (slot : ℕ) (ev : KeyEvent) (hslot : keycodeToInputSlot ev.keycode = some slot)
      (hpressed : ev.pressed = false) (keys : Bytes) (evs : List KeyEvent) (h : Taps keys evs) :
      Taps keys (ev::evs)

structure Idle (s : ImeLogic) : Prop where
  mode : s.mode = .smartZh
  keys : s.keySeqLen = 0
  multitap : ¬ s.multitapPending
  picker : s.symPickerOpen = false
  lru : s.lru = .empty

structure Typing (cs : CompositionSearch) (ks : Bytes) (s : ImeLogic) : Prop where
  mode : s.mode = .smartZh
  multitap : ¬ s.multitapPending
  picker : s.symPickerOpen = false
  lru : s.lru = .empty
  keys : s.keys = ks
  hints : s.hints = List.replicate ks.length kHintAny
  found : ks ≠ [] → s.candidates = (s.searchStart.runSearchV4 cs).candidates

theorem typing_idle (cs : CompositionSearch) (s : ImeLogic) (h : Idle s) : Typing cs [] s where
  mode := h.mode
  multitap := h.multitap
  picker := h.picker
  lru := h.lru
  keys := by rw [ImeLogic.keys, h.keys, bytes_zero]
  hints := by rw [ImeLogic.hints, h.keys, bytes_zero]; rfl
  found := fun hne => absurd rfl hne

theorem input_plain (kc : Keycode) (slot : ℕ) (h : keycodeToInputSlot kc = some slot) :
    ¬ (kc = mokyaKeyBack ∨ kc = mokyaKeyNone ∨ mokyaKeyLimit ≤ kc) ∧ kc ≠ mokyaKeySym1 ∧
    kc ≠ mokyaKeyMode ∧ kc ≠ mokyaKeyDel ∧ ImeLogic.navDir kc = none ∧ kc ≠ mokyaKeyOk ∧
    kc ≠ mokyaKeySym2 ∧ kc ≠ mokyaKeySpace ∧ kc ≠ mokyaKeyTab := by
  obtain ⟨-, e, he, -, rfl⟩ := input_slot kc slot h
  have hall : ∀ e ∈ kKeyTable, ¬ (e.keycode = mokyaKeyBack ∨ e.keycode = mokyaKeyNone ∨
      mokyaKeyLimit ≤ e.keycode) ∧ e.keycode ≠ mokyaKeySym1 ∧ e.keycode ≠ mokyaKeyMode ∧
      e.keycode ≠ mokyaKeyDel ∧ ImeLogic.navDir e.keycode = none ∧ e.keycode ≠ mokyaKeyOk ∧
      e.keycode ≠ mokyaKeySym2 ∧ e.keycode ≠ mokyaKeySpace ∧ e.keycode ≠ mokyaKeyTab := by
    decide
  exact hall e he

section Taps

variable (env : Env) (cs : CompositionSearch) (s : ImeLogic)

theorem run_search_dictionary (henv : env.compositionSearcher = some cs)
    (hmode : s.mode = .smartZh) (hlen : s.keySeqLen ≠ 0) :
    (s.runSearch env).candidates =
      (s.searchStart.runSearchV4 cs).prependLruCandidates.candidates := by
  have hv4 : s.searchStart.v4Searcher env = some cs := by
    rw [ImeLogic.v4Searcher, if_pos (show s.searchStart.mode = .smartZh from hmode), henv]
  unfold ImeLogic.runSearch
  dsimp only
  rw [if_neg (show ¬ s.searchStart.keySeqLen = 0 from hlen), hv4]
  rfl

/-- A search with an empty cache lists what the dictionary offers. -/
theorem run_search_v4 (henv : env.compositionSearcher = some cs) (hmode : s.mode = .smartZh)
    (hlru : s.lru = .empty) (hlen : s.keySeqLen ≠ 0) :
    (s.runSearch env).candidates = (s.searchStart.runSearchV4 cs).candidates ∧
    (s.runSearch env).symPickerOpen = s.symPickerOpen ∧ (s.runSearch env).lru = s.lru := by
  have hkeep : (s.searchStart.runSearchV4 cs).lru = .empty :=
    (run_search_v4_retains s.searchStart cs).lru.trans hlru
  have hpre : (s.searchStart.runSearchV4 cs).prependLruCandidates = s.searchStart.runSearchV4 cs := by
    unfold ImeLogic.prependLruCandidates
    split
    · rfl
    · rw [hkeep]
      rfl
  have hret := run_search_retains env s
  rw [Retains] at hret
  rw [run_search_dictionary env cs s henv hmode hlen, hpre, hret]
  exact ⟨rfl, rfl, rfl⟩

theorem key_append_bytes (key hint : UInt8) :
    (s.keyAppend key hint).keys = s.keys++[key] ∧
    (s.keyAppend key hint).hints = s.hints++[hint] := by
  simp only [ImeLogic.keyAppend, ImeLogic.keys, ImeLogic.hints]
  rw [bytes_store _ _ _ _ (le_refl _), bytes_push, bytes_push]
  exact ⟨rfl, rfl⟩

theorem dispatch_tap (ev : KeyEvent) (slot : ℕ) (e : KeyEntry)
    (hslot : keycodeToInputSlot ev.keycode = some slot) (he : kKeyTable[slot]? = some e)
    (hpressed : ev.pressed = true) (hshort : ev.flags &&& keyFlagLongPress = 0)
    (hmode : s.mode ≠ .direct) (hletter : s.mode = .smartEn → e.digitSlots = [])
    (hidle : ¬ s.multitapPending) (hpicker : s.symPickerOpen = false) :
    s.processKey env ev = (s.stampNow ev.nowMs).smartShortTap env slot := by
  obtain ⟨hspecial, hsym1, hmodeKey, hdel, hnav, hok, hsym2, hspace, htab⟩ :=
    input_plain ev.keycode slot hslot
  have hm : (s.stampNow ev.nowMs).mode = s.mode := rfl
  have hi : ¬ (s.stampNow ev.nowMs).multitapPending := hidle
  have hp : (s.stampNow ev.nowMs).symPickerOpen = false := hpicker
  have hsmart : (s.stampNow ev.nowMs).handleInput env ev =
      (s.stampNow ev.nowMs).handleSmart env ev := by
    rw [ImeLogic.handleInput, if_neg (fun h => hi h.1)]
    split
    · rename_i hd
      exact absurd (hm.symm.trans hd) hmode
    · rfl
  rw [ImeLogic.processKey, ImeLogic.dispatchKey, if_neg hspecial, if_neg hsym1,
    if_neg (by simp [hpressed]), if_neg (by simp [hp]), if_neg hmodeKey, if_neg hdel, hnav]
  dsimp only
  rw [if_neg hok, if_neg hsym2, hsmart, ImeLogic.handleSmart, if_neg hspace, if_neg htab, hslot]
  dsimp only
  rw [he]
  dsimp only
  rw [if_neg (fun h => h.2 (hletter (hm.symm.trans h.1))), if_neg (fun h => h.2 hshort)]

def withTap (slot : ℕ) : ImeLogic :=
  { s.keyAppend (slotByte slot) kHintAny with lpCycle := { s.lpCycle with byteIndex := none } }

theorem tap_search (ev : KeyEvent) (slot : ℕ) (e : KeyEntry)
    (hslot : keycodeToInputSlot ev.keycode = some slot) (he : kKeyTable[slot]? = some e)
    (hpressed : ev.pressed = true) (hshort : ev.flags &&& keyFlagLongPress = 0)
    (hmode : s.mode ≠ .direct) (hletter : s.mode = .smartEn → e.digitSlots = [])
    (hidle : ¬ s.multitapPending) (hpicker : s.symPickerOpen = false)
    (hroom : s.keySeqLen < kMaxKeySeq) :
    s.apply env (.processKey ev) = (withTap (s.stampNow ev.nowMs) slot).keysChanged env := by
  have hroom' : (s.stampNow ev.nowMs).keySeqLen < kMaxKeySeq := hroom
  rw [ImeLogic.apply, dispatch_tap env s ev slot e hslot he hpressed hshort hmode hletter hidle
    hpicker, ImeLogic.smartShortTap, if_pos hroom']
  rfl

theorem dispatch_press (ev : KeyEvent) (slot : ℕ)
    (hslot : keycodeToInputSlot ev.keycode = some slot) (hpressed : ev.pressed = true)
    (hshort : ev.flags &&& keyFlagLongPress = 0) (hmode : s.mode = .smartZh)
    (hidle : ¬ s.multitapPending) (hpicker : s.symPickerOpen = false) :
    (s.processKey env ev).1 = ((s.stampNow ev.nowMs).smartShortTap env slot).1 := by
  obtain ⟨-, e, -, hget, -⟩ := input_slot ev.keycode slot hslot
  rw [dispatch_tap env s ev slot e hslot hget hpressed hshort (by simp [hmode]) (by simp [hmode])
    hidle hpicker]

theorem dispatch_release (ev : KeyEvent) (slot : ℕ)
    (hslot : keycodeToInputSlot ev.keycode = some slot) (hpressed : ev.pressed = false) :
    (s.processKey env ev).1 = s.stampNow ev.nowMs := by
  obtain ⟨hspecial, hsym1, -⟩ := input_plain ev.keycode slot hslot
  rw [ImeLogic.processKey, ImeLogic.dispatchKey, if_neg hspecial, if_neg hsym1,
    if_pos (by simp [hpressed])]

theorem typing_quiet (t : ImeLogic) (ks : Bytes) (h : Typing cs ks s) (hb : t.base = s.base)
    (hc : t.candidates = s.candidates) (hp : t.symPickerOpen = s.symPickerOpen)
    (hl : t.lru = s.lru) : Typing cs ks t := by
  simp only [ImeLogic.base, Prod.mk.injEq] at hb
  obtain ⟨hmode, hkeys, hlen, hhints, hmulti, -⟩ := hb
  have hk : t.keys = s.keys := by rw [ImeLogic.keys, ImeLogic.keys, hkeys, hlen]
  have hh : t.hints = s.hints := by rw [ImeLogic.hints, ImeLogic.hints, hhints, hlen]
  refine ⟨hmode.trans h.mode, ?_, hp.trans h.picker, hl.trans h.lru, hk.trans h.keys,
    hh.trans h.hints, fun hne => ?_⟩
  · rw [ImeLogic.multitapPending, hmulti]
    exact h.multitap
  · rw [hc, h.found hne]
    exact v4_candidates_congr cs _ _ hk.symm hh.symm hlen.symm rfl

theorem typing_log (ks : Bytes) (h : Typing cs ks s) (e : Event) : Typing cs ks (s.log env e) := by
  unfold ImeLogic.log
  split
  · exact typing_quiet cs s _ ks h rfl rfl rfl rfl
  · exact h

theorem typing_stamp (ks : Bytes) (h : Typing cs ks s) (nowMs : UInt32) :
    Typing cs ks (s.stampNow nowMs) := typing_quiet cs s _ ks h rfl rfl rfl rfl

theorem typing_tap (henv : env.compositionSearcher = some cs) (ks : Bytes)
    (h : Typing cs ks s) (hroom : ks.length < kMaxKeySeq) (slot : ℕ) :
    Typing cs (ks++[slotByte slot]) (s.smartShortTap env slot).1 := by
  have hlen : s.keySeqLen = ks.length := by rw [← h.keys, ImeLogic.keys, bytes_length]
  obtain ⟨hkeys, hhints⟩ := key_append_bytes s (slotByte slot) kHintAny
  rw [ImeLogic.smartShortTap, if_pos (by omega)]
  generalize ht : { s.keyAppend (slotByte slot) kHintAny with
    lpCycle := { s.lpCycle with byteIndex := none } } = t
  have hmode : t.mode = .smartZh := by rw [← ht]; exact h.mode
  have hmulti : t.multitap = s.multitap := by rw [← ht]; rfl
  have hlru : t.lru = .empty := by rw [← ht]; exact h.lru
  have hne : t.keySeqLen ≠ 0 := by rw [← ht]; exact Nat.succ_ne_zero _
  have htkeys : t.keys = ks++[slotByte slot] := by rw [← ht, ← h.keys]; exact hkeys
  have hthints : t.hints = List.replicate (ks++[slotByte slot]).length kHintAny := by
    rw [List.length_append, List.length_singleton, List.replicate_succ', ← h.hints, ← ht]
    exact hhints
  obtain ⟨hc, hp, hl⟩ := run_search_v4 env cs t henv hmode hlru hne
  have hbase := run_search_base env t
  simp only [ImeLogic.base, Prod.mk.injEq] at hbase
  obtain ⟨hbmode, hbkeys, hblen, hbhints, hbmulti, -⟩ := hbase
  have hsearched : Typing cs (ks++[slotByte slot]) (t.runSearch env) := {
    mode := hbmode.trans hmode
    multitap := by
      rw [ImeLogic.multitapPending, hbmulti, hmulti]
      exact h.multitap
    picker := by rw [hp, ← ht]; exact h.picker
    lru := hl.trans hlru
    keys := by rw [ImeLogic.keys, hbkeys, hblen]; exact htkeys
    hints := by rw [ImeLogic.hints, hbhints, hblen]; exact hthints
    found := fun _ => hc.trans (v4_candidates_congr cs _ _
      (by simp only [ImeLogic.searchStart, ImeLogic.keys, hbkeys, hblen])
      (by simp only [ImeLogic.searchStart, ImeLogic.hints, hbhints, hblen])
      (by simp only [ImeLogic.searchStart, hblen]) rfl) }
  exact typing_log env cs _ _ hsearched .compositionChanged

theorem typing_taps (henv : env.compositionSearcher = some cs) (keys : Bytes)
    (evs : List KeyEvent) (ht : Taps keys evs) (ks : Bytes) (h : Typing cs ks s)
    (hroom : (ks++keys).length ≤ kMaxKeySeq) :
    Typing cs (ks++keys) (evs.foldl (fun s ev => (s.processKey env ev).1) s) := by
  induction ht generalizing ks s with
  | nil => rwa [List.append_nil]
  | press slot ev hslot hpressed hshort keys evs _ ih =>
    rw [List.foldl_cons, dispatch_press env s ev slot hslot hpressed hshort h.mode h.multitap h.picker]
    rw [List.length_append, List.length_cons] at hroom
    rw [List.append_cons]
    apply ih
    · exact typing_tap env cs _ henv ks (typing_stamp cs s ks h ev.nowMs) (by omega) slot
    · rw [List.length_append, List.length_append, List.length_singleton]
      omega
  | release slot ev hslot hpressed keys evs _ ih =>
    rw [List.foldl_cons, dispatch_release env s ev slot hslot hpressed]
    exact ih _ ks (typing_stamp cs s ks h ev.nowMs) hroom

end Taps

def tapEvent (b : UInt8) : KeyEvent :=
  ⟨match kKeyTable[b.toNat-0x21]? with
    | some e => e.keycode
    | none => mokyaKeyNone, true, 0, 0⟩

theorem tap_events (keys : Bytes) (h : ∀ b ∈ keys, 0x21 ≤ b ∧ b ≤ 0x34) :
    Taps keys (keys.map tapEvent) := by
  induction keys with
  | nil => exact .nil
  | cons b keys ih =>
    obtain ⟨hlo, hup⟩ := h b (by simp)
    have hlo' : 0x21 ≤ b.toNat := UInt8.le_iff_toNat_le.mp hlo
    have hup' : b.toNat ≤ 0x34 := UInt8.le_iff_toNat_le.mp hup
    have hbyte : slotByte (b.toNat-0x21) = b := by
      rw [slotByte, Nat.sub_add_cancel hlo', UInt8.ofNat_toNat]
    have hslots : ∀ slot < 20, keycodeToInputSlot (tapEvent (slotByte slot)).keycode = some slot := by
      decide
    have hslot := hslots (b.toNat-0x21) (by omega)
    rw [hbyte] at hslot
    have hpress := Taps.press _ (tapEvent b) hslot rfl
      (show (0 : UInt8) &&& keyFlagLongPress = 0 by decide) keys (keys.map tapEvent)
      (ih (fun c hc => h c (by simp [hc])))
    rwa [hbyte] at hpress

/-- The number of characters and of words of at most four characters that match. -/
def matchCount (raw : List RawEntry) (keys : Bytes) : ℕ :=
  (scan raw keys none 1).length+(scan raw keys none 2).length+(scan raw keys none 3).length+
    (scan raw keys none 4).length

theorem text_length (cs : List Char) : (text cs).length ≤ 4*cs.length := by
  induction cs with
  | nil => exact le_refl _
  | cons c cs ih =>
    have := utf8_length c
    simp only [text, List.flatMap_cons, List.length_append, List.length_cons] at *
    omega

theorem short_words_fit (raw : List RawEntry) (target : ℤ) (h : 1 ≤ target ∧ target ≤ 4) :
    WordsFit raw target := by
  intro w hw hin
  have hword := (dict_words_ok raw w hw).word_length
  have hlen := text_length w.word
  rw [inBuckets, if_neg (by omega), if_neg (by omega), decide_eq_true_iff] at hin
  simp only [kCandidateMaxBytes]
  omega

section Buckets

variable {raw : List RawEntry} {prefixes : List ℕ} {t : CompositionSearcher}

theorem open_best (hd : Decodes (buildCharTableV4 raw) (dictGroups raw) prefixes t)
    (hcount : (dictWords raw).length < 4294967296) (std : DescendingSort) (k : UInt8)
    (hk : 0x20 ≤ k ∧ k < 0x38) (ks hints : Bytes) (hopen : Open hints) (target : ℤ)
    (htarget : 1 ≤ target ∧ target ≤ 4) :
    Best Prod.snd Prod.fst kMaxCandidates (scan raw (k::ks) none target)
      ((t.search std (k::ks) (some hints) target kMaxCandidates).map
        (fun c => (c.word, c.freq))) := by
  rw [← scan_open raw (k::ks) hints hopen]
  exact search_best hd hcount std k hk ks (some hints) target
    (fun _ => short_words_fit raw target htarget) (by omega) kMaxCandidates (by decide)
    (fun _ => by decide)

theorem offered_le (hd : Decodes (buildCharTableV4 raw) (dictGroups raw) prefixes t)
    (hcount : (dictWords raw).length < 4294967296) (std : DescendingSort) (k : UInt8)
    (hk : 0x20 ≤ k ∧ k < 0x38) (ks : Bytes) (s : ImeLogic) (hkeys : s.keys = k::ks)
    (hopen : Open s.hints) (target : ℤ) (htarget : 1 ≤ target ∧ target ≤ 4) :
    offered s (.ofDictionary std t) target ≤ (scan raw (k::ks) none target).length := by
  have hbest := (open_best hd hcount std k hk ks s.hints hopen target htarget).length
  rw [List.length_map] at hbest
  rw [offered, if_pos htarget, hkeys]
  exact le_trans (le_of_eq hbest) (Nat.min_le_right _ _)

theorem scan_le_count (raw : List RawEntry) (keys : Bytes) (len : ℕ) (h : 1 ≤ len ∧ len ≤ 4) :
    (scan raw keys none len).length ≤ matchCount raw keys := by
  have hcases : len = 1 ∨ len = 2 ∨ len = 3 ∨ len = 4 := by omega
  rw [matchCount]
  rcases hcases with rfl | rfl | rfl | rfl
  all_goals
    simp only [Int.cast_ofNat_Int]
    omega

end Buckets

def dictionaryEnv (std : DescendingSort) (t : CompositionSearcher) : Env :=
  ⟨none, none, some (.ofDictionary std t), true⟩

def tappedWords (raw : List RawEntry) (keys : Bytes) : List Bytes :=
  let t := (CompositionSearcher.init.loadFromMemory (buildMiedV4 raw [0x4D] [0x49])).1
  ((keys.map tapEvent).foldl (fun s ev => (s.processKey (dictionaryEnv .stable t) ev).1)
    ImeLogic.init).candidates.map (fun p => p.1.word)

/-- A word of a dictionary that is not listed after short taps of its keys, though
nothing is wrong with it and the matches are few. -/
def OutOfReach (raw : List RawEntry) (word : List Char) : Prop :=
  ∃ blob, buildMiedV4 raw [0x4D] [0x49] = some blob ∧ Idle .init ∧
    ∃ rs, Entry raw word rs ∧ word.length ≤ 4 ∧ (typedKeys rs).length ≤ kMaxKeySeq ∧
      matchCount raw (typedKeys rs) < kMaxCandidates ∧
      ∃ evs, Taps (typedKeys rs) evs ∧
        ¬ ∃ p ∈ (evs.foldl (fun s ev => (s.processKey (dictionaryEnv .stable
          (CompositionSearcher.init.loadFromMemory (some blob)).1) ev).1) ImeLogic.init).candidates,
          p.1.word = text word

theorem idle_init : Idle .init where
  mode := rfl
  keys := rfl
  multitap := by decide
  picker := rfl
  lru := rfl

theorem out_of_reach (raw : List RawEntry) (w : WordEntry) (hw : w ∈ dictWords raw)
    (hsome : (buildMiedV4 raw [0x4D] [0x49]).isSome = true) (hlen : w.word.length ≤ 4)
    (hkeys : (typedKeys (chosenReadings (buildCharTableV4 raw) w)).length ≤ kMaxKeySeq)
    (hfew : matchCount raw (typedKeys (chosenReadings (buildCharTableV4 raw) w)) < kMaxCandidates)
    (hout : text w.word ∉ tappedWords raw (typedKeys (chosenReadings (buildCharTableV4 raw) w))) :
    OutOfReach raw w.word := by
  obtain ⟨blob, hblob⟩ := Option.isSome_iff_exists.mp hsome
  refine ⟨blob, hblob, idle_init, _, .word w hw, hlen, hkeys, hfew, _, tap_events _ ?_, ?_⟩
  · intro b hb
    obtain ⟨ks, hks, hb⟩ := List.mem_flatten.mp hb
    obtain ⟨r, hr, rfl⟩ := List.mem_map.mp hks
    exact (entry_ok raw _ _ (.word w hw) r hr).key b hb
  · rintro ⟨p, hp, hword⟩
    apply hout
    rw [tappedWords, hblob]
    exact List.mem_map.mpr ⟨p, hp, hword⟩

/-- The keys of the four one-key syllables are the keys of ㄔㄨㄤˊ. -/
def shadowed : List RawEntry :=
  [⟨['床'], 10, ['ㄔ', 'ㄨ', 'ㄤ', 'ˊ']⟩,
    ⟨['吃', '屋', '凹', '之'], 5, ['ㄔ', ' ', 'ㄨ', ' ', 'ㄠ', ' ', 'ㄓ']⟩]

/-- ㄇㄚˊ takes the first key of ㄓㄨㄤˋ, and ㄨ and ㄤ are counted on their own. -/
def torn : List RawEntry :=
  [⟨['麻'], 10, ['ㄇ', 'ㄚ', 'ˊ']⟩, ⟨['屋'], 10, ['ㄨ']⟩, ⟨['凹'], 10, ['ㄠ']⟩,
    ⟨['媽', '壯', '媽', '壯'], 5,
      ['ㄇ', 'ㄚ', ' ', 'ㄓ', 'ㄨ', 'ㄤ', 'ˋ', ' ', 'ㄇ', 'ㄚ', ' ', 'ㄓ', 'ㄨ', 'ㄤ', 'ˋ']⟩]

/-- Too few syllables are counted in the first word, too many in the second. -/
theorem words_out_of_reach : OutOfReach shadowed ['吃', '屋', '凹', '之'] ∧
    OutOfReach torn ['媽', '壯', '媽', '壯'] := by
  constructor
  · exact out_of_reach shadowed ⟨['吃', '屋', '凹', '之'], [2, 3, 1, 0], [0, 0, 0, 0], 5, 1⟩
      (by decide +kernel) (by decide +kernel) (by decide) (by decide +kernel) (by decide +kernel)
      (by decide +kernel)
  · exact out_of_reach torn ⟨['媽', '壯', '媽', '壯'], [2, 1, 2, 1], [0, 0, 0, 0], 5, 4⟩
      (by decide +kernel) (by decide +kernel) (by decide) (by decide +kernel) (by decide +kernel)
      (by decide +kernel)

/-- A word of up to four characters is listed after short taps of its keys, when
the syllables counted in the keys are at most four and within two of its length. -/
theorem entry_listed (raw : List RawEntry) (enDat enVal blob : Bytes)
    (h : buildMiedV4 raw enDat enVal = some blob) (t₀ : CompositionSearcher) (std : DescendingSort)
    (env : Env) (henv : env.compositionSearcher =
      some (.ofDictionary std (t₀.loadFromMemory (some blob)).1))
    (s : ImeLogic) (hs : Idle s) (word : List Char) (rs : List Reading) (he : Entry raw word rs)
    (hlen : word.length ≤ 4) (hkeys : (typedKeys rs).length ≤ kMaxKeySeq)
    (hfew : matchCount raw (typedKeys rs) < kMaxCandidates)
    (hcount : (t₀.loadFromMemory (some blob)).1.countSyllables (typedKeys rs) ≤ 4 ∧
      word.length ≤ (t₀.loadFromMemory (some blob)).1.countSyllables (typedKeys rs)+2 ∧
      (t₀.loadFromMemory (some blob)).1.countSyllables (typedKeys rs) ≤ word.length+2)
    (evs : List KeyEvent) (ht : Taps (typedKeys rs) evs) :
    ∃ p ∈ (evs.foldl (fun s ev => (s.processKey env ev).1) s).candidates,
      p.1.word = text word := by
  obtain ⟨t, hload, hd, hwords⟩ := build_decodes raw enDat enVal blob h t₀
  rw [hload] at henv hcount
  obtain ⟨hone, freq, hfound⟩ := entry_found raw word rs he
  obtain ⟨k, ks, hcons, hlo, hup, p, hp, r, hr, hhead⟩ := entry_keys raw word rs he
  have htyped := typing_taps env _ s henv (typedKeys rs) evs ht [] (typing_idle _ s hs) hkeys
  rw [List.nil_append] at htyped
  generalize evs.foldl (fun s ev => (s.processKey env ev).1) s = u at htyped ⊢
  have hpos : 1 ≤ t.countSyllables (typedKeys rs) := by
    rw [hcons]
    exact count_reading hd p hp r hr k hhead ks
  have hopen : Open u.hints := by
    rw [htyped.hints]
    exact fun hint hmem => List.eq_of_mem_replicate hmem
  have hk : 0x20 ≤ k ∧ k < 0x38 :=
    ⟨UInt8.le_trans (by decide) hlo, UInt8.lt_of_le_of_lt hup (by decide)⟩
  have hkeys' : u.searchStart.keys = typedKeys rs := htyped.keys
  have hoffered : ∀ target : ℤ, 1 ≤ target ∧ target ≤ 4 →
      offered u.searchStart (.ofDictionary std t) target ≤ (scan raw (typedKeys rs) none target).length := by
    intro target htarget
    rw [hcons]
    exact offered_le hd hwords std k hk ks u.searchStart (hkeys'.trans hcons) hopen target htarget
  have hroom := scan_le_count raw (typedKeys rs) word.length ⟨hone, hlen⟩
  have hbest := open_best hd hwords std k hk ks u.hints hopen word.length (by omega)
  rw [← hcons] at hbest
  obtain ⟨c, hc, heq⟩ := List.mem_map.mp (hbest.complete (by omega) _ hfound)
  rw [matchCount] at hfew
  have h1 := hoffered 1 (by omega)
  have h2 := hoffered 2 (by omega)
  have h3 := hoffered 3 (by omega)
  have h4 := hoffered 4 (by omega)
  have hpositions : u.searchStart.positions (.ofDictionary std t) = t.countSyllables (typedKeys rs) := by
    rw [ImeLogic.positions, hkeys', if_neg]
    · rfl
    · exact Nat.one_le_iff_ne_zero.mp hpos
  have hlisted := window_listed u.searchStart (.ofDictionary std t) _ hpositions ⟨hpos, hcount.1⟩
    (by omega) word.length ⟨hone, hlen⟩ hcount.2 c (by rw [hkeys']; exact hc)
  rw [← htyped.found (by rw [hcons]; exact List.cons_ne_nil _ _)] at hlisted
  obtain ⟨q, hq, hword⟩ := (listed_iff _ c).mp hlisted
  exact ⟨q, hq, hword.trans (congrArg Prod.fst heq)⟩

/-- 銀行 is listed once all its keys are tapped. -/
theorem sample_listed : ∃ blob, buildMiedV4 sampleEntries [0x4D] [0x49] = some blob ∧
    ∃ p ∈ (([0x29, 0x2A, 0x23, 0x31, 0x2F, 0x23].map tapEvent).foldl (fun s ev =>
      (s.processKey (dictionaryEnv .stable
        (CompositionSearcher.init.loadFromMemory (some blob)).1) ev).1) ImeLogic.init).candidates,
      p.1.word = text ['銀', '行'] := by
  have hsome : (buildMiedV4 sampleEntries [0x4D] [0x49]).isSome = true := by decide +kernel
  obtain ⟨blob, hblob⟩ := Option.isSome_iff_exists.mp hsome
  have hkeys : typedKeys (chosenReadings (buildCharTableV4 sampleEntries)
      ⟨['銀', '行'], [2, 1], [0, 1], 50, 2⟩) = [0x29, 0x2A, 0x23, 0x31, 0x2F, 0x23] := by
    decide +kernel
  have hcount : (CompositionSearcher.init.loadFromMemory (some blob)).1.countSyllables
      [0x29, 0x2A, 0x23, 0x31, 0x2F, 0x23] = 2 := by
    rw [← hblob]
    decide +kernel
  refine ⟨blob, hblob, ?_⟩
  apply entry_listed sampleEntries [0x4D] [0x49] blob hblob .init .stable _ rfl .init idle_init
    ['銀', '行'] _ (.word ⟨['銀', '行'], [2, 1], [0, 1], 50, 2⟩ (by decide +kernel)) (by decide)
  · rw [hkeys]
    decide
  · rw [hkeys]
    decide +kernel
  · rw [hkeys, hcount]
    decide
  · rw [hkeys]
    exact tap_events _ (by simp)

end MokyaLora.Ime
