import MokyaLora.DictRoundTrip

/-!
# The search misses nothing

What the search finds through its two indexes, in id ranges and with a pool, is
what a scan of all words or all characters finds, but for the less frequent
matches that there was no room for.
-/

set_option autoImplicit false

namespace MokyaLora.CompositionScan
open Lib.Fields Lib.TopK Lib.Buckets GenDict
open CompositionSearcher hiding charReadings

def chosenReadings (table : CharTable) (w : WordEntry) : List Reading :=
  (w.charIds.zip w.readingIdxs).filterMap (fun q => (charReadings table q.1)[q.2]?)

def inBuckets (target : ℤ) (w : WordEntry) : Bool :=
  if target = 0 then true
  else if target = -1 then decide (5 ≤ w.charIds.length)
  else decide ((w.charIds.length : ℤ) = target)

def wordMatches (table : CharTable) (keys : Bytes) (hints : Option Bytes) (w : WordEntry) : Bool :=
  compositionRecurse ((chosenReadings table w).map (fun r => some r.stored)) keys hints

/-- The string and the stored frequency of every match among the words. -/
def scanWords (raw : List RawEntry) (keys : Bytes) (hints : Option Bytes) (target : ℤ) :
    List (Bytes × ℕ) :=
  let table := buildCharTableV4 raw
  ((buildWordTableV4 raw table).filter
    (fun w => inBuckets target w && wordMatches table keys hints w)).map
    (fun w => (Ime.text w.word, w.stored.freq))

/-- A character with the highest frequency of its matching readings. -/
def charMatch (keys : Bytes) (tone1 : Bool) (hints : Option Bytes) (p : Char × List Reading) :
    Option (Bytes × ℕ) :=
  (((p.2.map Reading.stored).filter (readingMatches keys tone1 hints)).map ReadingView.freq).max?.map
    (fun freq => (Ime.utf8 p.1, freq))

def scanChars (raw : List RawEntry) (keys : Bytes) (hints : Option Bytes) : List (Bytes × ℕ) :=
  let (eff, tone1) := effectiveKeys keys
  if eff = [] then [] else (buildCharTableV4 raw).filterMap (charMatch eff tone1 hints)

def scan (raw : List RawEntry) (keys : Bytes) (hints : Option Bytes) (target : ℤ) :
    List (Bytes × ℕ) :=
  if target = 1 then scanChars raw keys hints else scanWords raw keys hints target

section Tables

variable {table : CharTable} {groups : List (List WordEntry)} {prefixes : List ℕ}
  {t : CompositionSearcher}

theorem char_readings (hd : Decodes table groups prefixes t) (cid : ℕ) (h : cid < table.length) :
    t.charReadings cid = table[cid].2.map Reading.stored := by
  apply List.ext_getElem?
  intro i
  have hr := hd.reading cid h i
  rw [getReading] at hr
  rw [hr, List.getElem?_map]

theorem word_chars (w : WordEntry) (hlen : w.readingIdxs.length = w.charIds.length) :
    wordChars w.stored = w.charIds.zip w.readingIdxs := by
  unfold wordChars WordEntry.stored
  by_cases ho : hasOverrides w
  · simp only [ho, if_true]
  · have hzero : ∀ i ∈ w.readingIdxs, i = 0 := by
      intro i hi
      by_contra hne
      exact ho (List.any_eq_true.mpr ⟨i, hi, by simpa using hne⟩)
    have hrep : w.readingIdxs = List.replicate w.charIds.length 0 :=
      List.eq_replicate_iff.mpr ⟨hlen, hzero⟩
    simp only [ho, if_false, Bool.false_eq_true]
    rw [hrep]
    apply List.ext_getElem
    · simp
    · intro i _ _
      simp

theorem get_reading (hd : Decodes table groups prefixes t) (cid idx : ℕ) (h : cid < table.length) :
    t.getReading cid idx = (charReadings table cid)[idx]?.map Reading.stored := by
  rw [hd.reading cid h, charReadings, List.getElem?_eq_getElem h]

theorem word_readings (hd : Decodes table groups prefixes t) (w : WordEntry) (hw : WordOk table w) :
    t.wordReadings w.stored = (chosenReadings table w).map (fun r => some r.stored) := by
  have hone : ∀ q ∈ w.charIds.zip w.readingIdxs, ∃ r, (charReadings table q.1)[q.2]? = some r ∧
      t.getReading q.1 q.2 = some r.stored := by
    intro q hq
    have hidx := List.getElem?_eq_getElem (hw.reading q hq)
    refine ⟨_, hidx, ?_⟩
    rw [get_reading hd q.1 q.2 (hw.ids q.1 (List.of_mem_zip hq).1), hidx, Option.map_some]
  rw [wordReadings, word_chars w hw.idxs, chosenReadings]
  generalize w.charIds.zip w.readingIdxs = qs at hone
  induction qs with
  | nil => rfl
  | cons q qs ih =>
    obtain ⟨r, hr, hget⟩ := hone q (by simp)
    rw [List.map_cons, List.filterMap_cons, hr, hget, List.map_cons, ih (fun p hp => hone p (by simp [hp]))]

theorem word_matches (hd : Decodes table groups prefixes t) (w : WordEntry) (hw : WordOk table w)
    (keys : Bytes) (hints : Option Bytes) :
    t.compositionMatches w.stored keys hints = wordMatches table keys hints w := by
  rw [compositionMatches, word_readings hd w hw, checkedHints, hd.hasPhonemePos, if_pos rfl,
    wordMatches]

end Tables

theorem cstr_text (cs : List Char) (h : ∀ c ∈ cs, isCjk c = true) :
    cstr (Ime.text cs) = Ime.text cs := by
  rw [cstr, List.takeWhile_eq_self_iff]
  intro b hb
  obtain ⟨c, hc, hb⟩ := List.mem_flatMap.mp hb
  have hcjk := h c hc
  simp only [isCjk, Bool.or_eq_true, Bool.and_eq_true, decide_eq_true_eq] at hcjk
  simpa using Ime.utf8_ne_zero c (by omega) b hb

section Strings

variable {table : CharTable} {groups : List (List WordEntry)} {prefixes : List ℕ}
  {t : CompositionSearcher}

theorem append_chars (hd : Decodes table groups prefixes t) (ids : List ℕ) (word : List Char)
    (hspell : ids.map (fun cid => (table[cid]?).map Prod.fst) = word.map some) (written : Bytes)
    (hfit : written.length+(Ime.text word).length < kCandidateMaxBytes) :
    t.appendChars ids written = written++Ime.text word := by
  induction ids generalizing word written with
  | nil =>
    have hnil : word = [] := by simpa using hspell.symm
    rw [hnil]
    simp [appendChars, Ime.text]
  | cons cid ids ih =>
    cases word with
    | nil => simp at hspell
    | cons c word =>
      simp only [List.map_cons, List.cons.injEq] at hspell
      obtain ⟨p, hp, hc⟩ := Option.map_eq_some_iff.mp hspell.1
      obtain ⟨hlt, hget⟩ := List.getElem?_eq_some_iff.mp hp
      have hdata := (hd.charData cid hlt).1
      rw [hget, hc] at hdata
      simp only [Ime.text, List.flatMap_cons, List.length_append] at hfit
      rw [appendChars, hdata, if_neg (by simp only [kCandidateMaxBytes] at *; omega), ih word hspell.2]
      · simp [Ime.text]
      · simp only [List.length_append, Ime.text]
        omega

end Strings

theorem tried_range (klen n : ℕ) (h : n ∈ triedLengths klen) : 1 ≤ n ∧ n ≤ klen := by
  have hfold : ∀ ps tried : List ℕ, (∀ m ∈ tried, 1 ≤ m ∧ m ≤ klen) →
      ∀ m ∈ ps.foldl (fun tried p => if p < 1 ∨ klen < p ∨ p ∈ tried then tried else tried++[p])
        tried, 1 ≤ m ∧ m ≤ klen := by
    intro ps
    induction ps with
    | nil => exact fun _ ht => ht
    | cons p ps ih =>
      intro tried ht
      rw [List.foldl_cons]
      apply ih
      split
      · exact ht
      · intro m hm
        rcases List.mem_append.mp hm with hm | hm
        · exact ht m hm
        · rw [List.mem_singleton.mp hm]
          omega
  exact hfold _ [] (by simp) n h

theorem head_of_take (l : Bytes) (k : UInt8) (ks : Bytes) (n : ℕ) (hn : 1 ≤ n)
    (h : l.take n = (k::ks).take n) : l.head? = some k := by
  obtain ⟨m, rfl⟩ := Nat.exists_eq_succ_of_ne_zero (Nat.ne_of_gt hn)
  cases l with
  | nil => simp at h
  | cons b l =>
    rw [List.take_succ_cons, List.take_succ_cons, List.cons.injEq] at h
    rw [List.head?_cons, h.1]

theorem recurse_head (r : ReadingView) (rs : List (Option ReadingView)) (k : UInt8) (ks : Bytes)
    (hints : Option Bytes) (h : compositionRecurse (some r::rs) (k::ks) hints = true) :
    r.keyseq.head? = some k := by
  rw [compositionRecurse] at h
  obtain ⟨n, hn, hmatch⟩ := List.any_eq_true.mp h
  obtain ⟨hpos, -⟩ := tried_range _ n hn
  dsimp only at hmatch
  split at hmatch
  · rw [Bool.and_eq_true, beq_iff_eq] at hmatch
    apply head_of_take r.keyseq k ks (k::ks).length (Nat.succ_pos _)
    rw [hmatch.1, List.take_length]
  · split at hmatch
    · rename_i hc
      rw [Bool.and_eq_true, beq_iff_eq] at hc
      exact head_of_take r.keyseq k ks n hpos hc.1
    · cases hmatch

theorem mem_chars_by_key (table : CharTable) (slot cid : ℕ) :
    cid ∈ charsByKey table slot ↔ cid < table.length ∧ ∃ r ∈ charReadings table cid,
      r.keyseq.head? = some (UInt8.ofNat (keyMin+slot)) := by
  simp [charsByKey]

theorem chars_by_key_nodup (table : CharTable) (slot : ℕ) : (charsByKey table slot).Nodup :=
  List.nodup_range.filter _

theorem key_byte (k : UInt8) (h : 0x20 ≤ k ∧ k < 0x38) :
    ¬ (k < kKeyByteMin ∨ kKeyByteMax ≤ k) := by
  rintro (hlt | hle)
  · exact absurd h.1 (UInt8.not_le.mpr hlt)
  · exact absurd h.2 (UInt8.not_lt.mpr hle)

theorem key_slot (k : UInt8) (h : 0x20 ≤ k ∧ k < 0x38) :
    k.toNat-0x20 < numSlots ∧ UInt8.ofNat (keyMin+(k.toNat-0x20)) = k := by
  have hlo : 0x20 ≤ k.toNat := UInt8.le_iff_toNat_le.mp h.1
  have hup : k.toNat < 0x38 := UInt8.lt_iff_toNat_lt.mp h.2
  constructor
  · simp only [numSlots]
    omega
  · rw [keyMin, Nat.add_sub_cancel' hlo, UInt8.ofNat_toNat]

theorem mem_words_by_first_char (flat : List WordEntry) (cid wid : ℕ) :
    wid ∈ wordsByFirstChar flat cid ↔
      ∃ w, flat[wid]? = some w ∧ w.charIds.head? = some cid := by
  simp only [wordsByFirstChar, List.mem_map, List.mem_insertionSort, List.mem_filter,
    decide_eq_true_eq, List.mem_zipIdx_iff_getElem?]
  constructor
  · rintro ⟨⟨w, i⟩, ⟨hget, hhead⟩, rfl⟩
    exact ⟨w, hget, hhead⟩
  · rintro ⟨w, hget, hhead⟩
    exact ⟨(w, wid), ⟨hget, hhead⟩, rfl⟩

theorem words_by_first_char_nodup (flat : List WordEntry) (cid : ℕ) :
    (wordsByFirstChar flat cid).Nodup := by
  rw [wordsByFirstChar, ((List.perm_insertionSort _ _).map _).nodup_iff]
  apply (List.filter_sublist.map Prod.snd).nodup
  rw [List.zipIdx_map_snd]
  exact List.nodup_range'

theorem max_of_sorted {α : Type} (rank : α → ℕ) (p : α → Bool) (l : List α)
    (h : l.Pairwise (fun a b => rank b ≤ rank a)) :
    ((l.filter p).map rank).max? = (l.find? p).map rank := by
  rw [← List.head?_filter]
  have hf := h.filter p
  cases hl : l.filter p with
  | nil => rfl
  | cons a as =>
    rw [hl, List.pairwise_cons] at hf
    rw [List.head?_cons, Option.map_some, List.max?_eq_some_iff]
    refine ⟨by simp, ?_⟩
    intro n hn
    obtain ⟨b, hb, rfl⟩ := List.mem_map.mp hn
    rcases List.mem_cons.mp hb with rfl | hb
    · exact le_refl _
    · exact hf.1 b hb

theorem find_zipIdx {α : Type} (p : α → Bool) (l : List α) :
    (l.zipIdx.find? (fun q => p q.1)).map Prod.fst = l.find? p := by
  conv_rhs => rw [← List.zipIdx_map_fst 0 l, List.find?_map]
  rfl

section Chars

variable {table : CharTable} {groups : List (List WordEntry)} {prefixes : List ℕ}
  {t : CompositionSearcher}

theorem stored_sorted (rs : List Reading) (h : rs.Pairwise (fun a b => b.freq ≤ a.freq)) :
    (rs.map Reading.stored).Pairwise (fun a b => b.freq ≤ a.freq) := by
  rw [List.pairwise_map]
  apply h.imp
  intro a b hle
  simp only [Reading.stored]
  omega

theorem pick_char (hd : Decodes table groups prefixes t) (keys : Bytes) (tone1 : Bool)
    (hints : Option Bytes) (cid : ℕ) (h : cid < table.length) (hok : CharOk table[cid]) :
    (t.pickChar keys tone1 hints cid).map (fun p => ((t.pickCandidate p).word, p.freq)) =
      charMatch keys tone1 hints table[cid] := by
  have hword : cstr ((t.charDataAt cid).1.take (kCandidateMaxBytes-1)) = Ime.utf8 table[cid].1 := by
    have hlen : (Ime.utf8 table[cid].1).length ≤ kCandidateMaxBytes-1 := by
      have := Ime.utf8_length table[cid].1
      simp only [kCandidateMaxBytes]
      omega
    rw [(hd.charData cid h).1, List.take_of_length_le hlen]
    have htext := cstr_text [table[cid].1] (by simpa using hok.cjk)
    simpa [Ime.text] using htext
  rw [charMatch, max_of_sorted _ _ _ (stored_sorted _ hok.sorted), ← find_zipIdx, pickChar,
    char_readings hd cid h]
  simp only [Option.map_map]
  congr 1
  funext q
  simp only [Function.comp_apply, pickCandidate, Candidate.ofBytes, hword]

theorem char_match_head (keys : Bytes) (tone1 : Bool) (hints : Option Bytes) (k : UInt8)
    (hk : keys.head? = some k) (p : Char × List Reading) (m : Bytes × ℕ)
    (h : charMatch keys tone1 hints p = some m) : ∃ r ∈ p.2, r.keyseq.head? = some k := by
  obtain ⟨freq, hfreq, -⟩ := Option.map_eq_some_iff.mp h
  obtain ⟨v, hv, -⟩ := List.mem_map.mp (List.max?_mem hfreq)
  obtain ⟨hmem, hmatch⟩ := List.mem_filter.mp hv
  obtain ⟨r, hr, rfl⟩ := List.mem_map.mp hmem
  refine ⟨r, hr, ?_⟩
  cases keys with
  | nil => cases hk
  | cons k' ks =>
    cases hk
    simp only [readingMatches, Bool.and_eq_true, beq_iff_eq] at hmatch
    apply head_of_take r.keyseq k ks (k::ks).length (Nat.succ_pos _)
    rw [List.take_length]
    exact hmatch.1.2

theorem chars_found {raw : List RawEntry}
    (hd : Decodes (buildCharTableV4 raw) groups prefixes t) (k : UInt8) (hk : 0x20 ≤ k ∧ k < 0x38)
    (eff : Bytes) (heff : eff.head? = some k) (tone1 : Bool) (hints : Option Bytes) :
    (((t.charsFrom k).filterMap (t.pickChar eff tone1 hints)).map
      (fun p => ((t.pickCandidate p).word, p.freq))).Perm
      ((buildCharTableV4 raw).filterMap (charMatch eff tone1 hints)) := by
  obtain ⟨hslot, hkey⟩ := key_slot k hk
  have hchars := hd.charsFrom _ hslot
  rw [hkey] at hchars
  have hpick : ∀ cid ∈ charsByKey (buildCharTableV4 raw) (k.toNat-0x20),
      (t.pickChar eff tone1 hints cid).map (fun p => ((t.pickCandidate p).word, p.freq)) =
        (buildCharTableV4 raw)[cid]?.bind (charMatch eff tone1 hints) := by
    intro cid hcid
    have h := ((mem_chars_by_key _ _ cid).mp hcid).1
    rw [List.getElem?_eq_getElem h, Option.bind_some]
    exact pick_char hd eff tone1 hints cid h (char_table_ok raw _ (List.getElem_mem h))
  rw [hchars, List.map_filterMap, List.filterMap_congr hpick,
    ← filter_map_range (buildCharTableV4 raw)]
  apply filter_map_perm _ _ (chars_by_key_nodup _ _) List.nodup_range
  · intro cid hcid
    exact List.mem_range.mpr ((mem_chars_by_key _ _ cid).mp hcid).1
  · intro cid hcid hout
    rw [List.mem_range] at hcid
    rw [List.getElem?_eq_getElem hcid, Option.bind_some]
    cases hm : charMatch eff tone1 hints (buildCharTableV4 raw)[cid] with
    | none => rfl
    | some m =>
      obtain ⟨r, hr, hhead⟩ := char_match_head eff tone1 hints k heff _ m hm
      refine absurd ((mem_chars_by_key _ _ cid).mpr ⟨hcid, r, ?_, by rw [hkey, hhead]⟩) hout
      rwa [charReadings, List.getElem?_eq_getElem hcid]

end Chars

section Words

variable {raw : List RawEntry} {prefixes : List ℕ} {t : CompositionSearcher}

theorem group_end (raw : List RawEntry) (g : ℕ) (hg : g < maxGroup) :
    ((dictGroups raw).getD g []).length+start (dictGroups raw) g = start (dictGroups raw) (g+1) := by
  have hgroups : (dictGroups raw).length = maxGroup := grouped_length _
  rw [start_succ _ g (by omega), List.getD_eq_getElem?_getD, List.getElem?_eq_getElem (by omega),
    Option.getD_some, Nat.add_comm]

theorem group_wrap (raw : List RawEntry) (hcount : (dictWords raw).length < 4294967296) (g : ℕ)
    (hg : g < maxGroup) :
    u32 (start (dictGroups raw) g+((dictGroups raw).getD g []).length) =
      start (dictGroups raw) (g+1) := by
  have hend : start (dictGroups raw) (g+1) ≤ (dictWords raw).length := start_le (dictGroups raw) (g+1)
  rw [u32, Nat.add_comm, group_end raw g hg, Nat.mod_eq_of_lt (by omega)]

theorem in_group (raw : List RawEntry) (g : ℕ) (hg : g < maxGroup) (wid : ℕ)
    (hw : wid < (dictWords raw).length) :
    start (dictGroups raw) g ≤ wid ∧ wid < start (dictGroups raw) (g+1) ↔
      min (dictWords raw)[wid].charIds.length 8 = g+1 := by
  have hlen : 2 ≤ (dictWords raw)[wid].charIds.length :=
    (dict_words_ok raw _ (List.getElem_mem hw)).length
  have hbucket : bucketOf (dictWords raw)[wid] = min (dictWords raw)[wid].charIds.length 8 := by
    unfold bucketOf maxGroup
    split <;> omega
  rw [← hbucket, ← group_range raw g hg wid hw, ← group_end raw g hg, Nat.add_comm]

theorem in_long_groups (raw : List RawEntry) (wid : ℕ) (hw : wid < (dictWords raw).length) :
    start (dictGroups raw) 4 ≤ wid ∧ wid < start (dictGroups raw) 8 ↔
      5 ≤ (dictWords raw)[wid].charIds.length := by
  have hgroups : (dictGroups raw).length = maxGroup := grouped_length _
  have hall : start (dictGroups raw) 8 = (dictWords raw).length := by
    have hend := start_end (dictGroups raw)
    rwa [hgroups] at hend
  have r4 := in_group raw 4 (by decide) wid hw
  have r5 := in_group raw 5 (by decide) wid hw
  have r6 := in_group raw 6 (by decide) wid hw
  have r7 := in_group raw 7 (by decide) wid hw
  have m5 := group_end raw 4 (by decide)
  have m6 := group_end raw 5 (by decide)
  have m7 := group_end raw 6 (by decide)
  simp only [Nat.reduceAdd] at r4 r5 r6 r7 m5 m6 m7 ⊢
  omega

theorem allowed_range (hd : Decodes (buildCharTableV4 raw) (dictGroups raw) prefixes t)
    (hcount : (dictWords raw).length < 4294967296) (target : ℤ)
    (htarget : -1 ≤ target ∧ target ≤ 7 ∧ target ≠ 1) (wid : ℕ) (hw : wid < (dictWords raw).length) :
    (t.allowedRange target).1 ≤ wid ∧ wid < (t.allowedRange target).2 ↔
      inBuckets target (dictWords raw)[wid] = true := by
  unfold allowedRange inBuckets
  by_cases hpos : 0 < target
  · have hg : target.toNat-1 < maxGroup := by
      simp only [maxGroup]
      omega
    rw [if_pos ⟨hpos, htarget.2.1⟩, hd.groupHeader _ hg, if_neg (by omega), if_neg (by omega)]
    dsimp only
    rw [group_wrap raw hcount _ hg, in_group raw _ hg wid hw, decide_eq_true_iff]
    omega
  · rw [if_neg (fun h => hpos h.1)]
    by_cases hlong : target = -1
    · rw [if_pos hlong, hd.groupHeader 4 (by decide), hd.groupHeader 7 (by decide),
        if_neg (by omega), if_pos hlong]
      dsimp only
      rw [group_wrap raw hcount 7 (by decide), decide_eq_true_iff]
      exact in_long_groups raw wid hw
    · have hzero : target = 0 := by omega
      rw [if_neg hlong, if_pos hzero, hd.wordCount]
      exact iff_of_true ⟨Nat.zero_le _, hw⟩ rfl

theorem word_cjk (raw : List RawEntry) (w : WordEntry) (hw : WordOk (buildCharTableV4 raw) w) :
    ∀ c ∈ w.word, isCjk c = true := by
  intro c hc
  have hmem : some c ∈ w.word.map some := List.mem_map_of_mem hc
  rw [← hw.spells] at hmem
  obtain ⟨cid, -, hcid⟩ := List.mem_map.mp hmem
  obtain ⟨p, hp, rfl⟩ := Option.map_eq_some_iff.mp hcid
  exact (char_table_ok raw p (List.mem_of_getElem? hp)).cjk

def wordFound (table : CharTable) (keys : Bytes) (hints : Option Bytes) (target : ℤ)
    (w : WordEntry) : Option (Bytes × ℕ) :=
  if inBuckets target w && wordMatches table keys hints w then
    some (Ime.text w.word, w.stored.freq) else none

/-- No string of the selected lengths is cut. -/
def WordsFit (raw : List RawEntry) (target : ℤ) : Prop :=
  ∀ w ∈ dictWords raw, inBuckets target w = true → (Ime.text w.word).length < kCandidateMaxBytes

theorem match_word_at (hd : Decodes (buildCharTableV4 raw) (dictGroups raw) prefixes t)
    (hcount : (dictWords raw).length < 4294967296) (target : ℤ)
    (htarget : -1 ≤ target ∧ target ≤ 7 ∧ target ≠ 1) (keys : Bytes) (hints : Option Bytes)
    (wid : ℕ) (w : WordEntry) (hw : (dictWords raw)[wid]? = some w) :
    t.matchWord (t.allowedRange target) keys hints wid =
      if inBuckets target w && wordMatches (buildCharTableV4 raw) keys hints w then
        some (t.wordCandidate w.stored) else none := by
  obtain ⟨hlt, rfl⟩ := List.getElem?_eq_some_iff.mp hw
  have hok := dict_words_ok raw _ (List.getElem_mem hlt)
  have hr := allowed_range hd hcount target htarget wid hlt
  have hget : t.getWord wid = some (dictWords raw)[wid].stored := by
    rw [hd.word wid, show (dictGroups raw).flatten = dictWords raw from rfl, hw, Option.map_some]
  rw [matchWord, hget]
  by_cases hin : inBuckets target (dictWords raw)[wid] = true
  · have hrange := hr.mpr hin
    rw [if_neg (by omega), hin, Bool.true_and]
    dsimp only
    rw [word_matches hd _ hok]
  · have hrange := mt hr.mp hin
    rw [if_pos (by omega), if_neg (by simp [hin])]

theorem match_word_none (hd : Decodes (buildCharTableV4 raw) (dictGroups raw) prefixes t)
    (range : ℕ × ℕ) (keys : Bytes) (hints : Option Bytes) (wid : ℕ)
    (hw : (dictWords raw)[wid]? = none) : t.matchWord range keys hints wid = none := by
  have hget : t.getWord wid = none := by
    rw [hd.word wid]
    exact congrArg (Option.map WordEntry.stored) hw
  rw [matchWord, hget]
  split <;> rfl

theorem match_word (hd : Decodes (buildCharTableV4 raw) (dictGroups raw) prefixes t)
    (hcount : (dictWords raw).length < 4294967296) (target : ℤ) (hfit : WordsFit raw target)
    (htarget : -1 ≤ target ∧ target ≤ 7 ∧ target ≠ 1) (keys : Bytes) (hints : Option Bytes)
    (wid : ℕ) :
    (t.matchWord (t.allowedRange target) keys hints wid).map (fun c => (c.word, c.freq)) =
      (dictWords raw)[wid]?.bind (wordFound (buildCharTableV4 raw) keys hints target) := by
  cases hw : (dictWords raw)[wid]? with
  | none =>
    rw [match_word_none hd _ keys hints wid hw]
    rfl
  | some w =>
    have hmem := List.mem_of_getElem? hw
    have hok := dict_words_ok raw w hmem
    have hstr : inBuckets target w = true →
        (t.wordCandidate w.stored).word = Ime.text w.word := by
      intro hin
      have happ := append_chars hd w.charIds _ hok.spells [] (by simpa using hfit w hmem hin)
      simp only [wordCandidate, Candidate.ofBytes, WordEntry.stored, happ, List.nil_append]
      exact cstr_text _ (word_cjk raw w hok)
    rw [match_word_at hd hcount target htarget keys hints wid w hw, Option.bind_some, wordFound]
    split
    · rename_i hfound
      rw [Bool.and_eq_true] at hfound
      rw [Option.map_some, hstr hfound.1]
      rfl
    · rfl

def indexedIds (raw : List RawEntry) (slot : ℕ) : List ℕ :=
  (charsByKey (buildCharTableV4 raw) slot).flatMap (wordsByFirstChar (dictWords raw))

theorem indexed_ids (hd : Decodes (buildCharTableV4 raw) (dictGroups raw) prefixes t) (k : UInt8)
    (hk : 0x20 ≤ k ∧ k < 0x38) :
    (t.charsFrom k).flatMap t.wordsFrom = indexedIds raw (k.toNat-0x20) := by
  obtain ⟨hslot, hkey⟩ := key_slot k hk
  have hchars := hd.charsFrom _ hslot
  rw [hkey] at hchars
  rw [hchars, indexedIds]
  apply List.flatMap_congr
  intro cid hcid
  exact hd.wordsFrom cid ((mem_chars_by_key _ _ cid).mp hcid).1

theorem indexed_ids_nodup (raw : List RawEntry) (slot : ℕ) : (indexedIds raw slot).Nodup := by
  rw [indexedIds, List.nodup_flatMap]
  refine ⟨fun cid _ => words_by_first_char_nodup _ cid, ?_⟩
  apply (chars_by_key_nodup _ slot).imp
  intro a b hab
  show List.Disjoint _ _
  rw [List.disjoint_left]
  intro wid ha hb
  obtain ⟨w, hw, hhead⟩ := (mem_words_by_first_char _ a wid).mp ha
  obtain ⟨v, hv, hhead'⟩ := (mem_words_by_first_char _ b wid).mp hb
  rw [hw] at hv
  cases hv
  rw [hhead] at hhead'
  exact hab (Option.some.inj hhead')

/-- The indexes lead to every word that matches. -/
theorem indexed_match (raw : List RawEntry) (slot : ℕ) (k : UInt8)
    (hk : UInt8.ofNat (keyMin+slot) = k) (ks : Bytes) (hints : Option Bytes) (wid : ℕ)
    (w : WordEntry) (hw : (dictWords raw)[wid]? = some w)
    (h : wordMatches (buildCharTableV4 raw) (k::ks) hints w = true) : wid ∈ indexedIds raw slot := by
  have hok := dict_words_ok raw w (List.mem_of_getElem? hw)
  have hlen := hok.length
  have hidxs := hok.idxs
  rw [wordMatches, chosenReadings] at h
  cases hids : w.charIds with
  | nil =>
    rw [hids] at hlen
    simp at hlen
  | cons cid cids =>
    cases hr : w.readingIdxs with
    | nil =>
      rw [hr, hids] at hidxs
      simp at hidxs
    | cons idx idxs =>
      have hidx := hok.reading (cid, idx) (by rw [hids, hr]; simp)
      rw [hids, hr, List.zip_cons_cons, List.filterMap_cons, List.getElem?_eq_getElem hidx] at h
      have hhead := recurse_head _ _ k ks hints h
      refine List.mem_flatMap.mpr ⟨cid, ?_, ?_⟩
      · rw [mem_chars_by_key]
        refine ⟨hok.ids cid (by rw [hids]; simp), _, List.getElem_mem hidx, ?_⟩
        rw [hk]
        exact hhead
      · exact (mem_words_by_first_char _ cid wid).mpr ⟨w, hw, by rw [hids, List.head?_cons]⟩

theorem scan_words (raw : List RawEntry) (keys : Bytes) (hints : Option Bytes) (target : ℤ) :
    scanWords raw keys hints target = (buildWordTableV4 raw (buildCharTableV4 raw)).filterMap
      (wordFound (buildCharTableV4 raw) keys hints target) := by
  rw [scanWords, ← List.filterMap_eq_map, List.filterMap_filter]
  apply List.filterMap_congr
  intro w _
  rfl

theorem words_found (hd : Decodes (buildCharTableV4 raw) (dictGroups raw) prefixes t)
    (hcount : (dictWords raw).length < 4294967296) (target : ℤ) (hfit : WordsFit raw target)
    (htarget : -1 ≤ target ∧ target ≤ 7 ∧ target ≠ 1) (k : UInt8) (hk : 0x20 ≤ k ∧ k < 0x38)
    (ks : Bytes) (hints : Option Bytes) :
    ((((t.charsFrom k).flatMap t.wordsFrom).filterMap
      (t.matchWord (t.allowedRange target) (k::ks) hints)).map (fun c => (c.word, c.freq))).Perm
      (scanWords raw (k::ks) hints target) := by
  have hkey := (key_slot k hk).2
  rw [indexed_ids hd k hk, List.map_filterMap, scan_words]
  refine List.Perm.trans ?_ ((dict_words_perm raw).filterMap _)
  rw [← filter_map_range (dictWords raw)]
  simp only [match_word hd hcount target hfit htarget]
  apply filter_map_perm _ _ (indexed_ids_nodup raw _) List.nodup_range
  · intro wid hwid
    obtain ⟨cid, -, hmem⟩ := List.mem_flatMap.mp hwid
    obtain ⟨w, hw, -⟩ := (mem_words_by_first_char _ cid wid).mp hmem
    exact List.mem_range.mpr (List.getElem?_eq_some_iff.mp hw).1
  · intro wid hwid hout
    rw [List.mem_range] at hwid
    rw [List.getElem?_eq_getElem hwid, Option.bind_some, wordFound, if_neg]
    intro h
    rw [Bool.and_eq_true] at h
    exact hout (indexed_match raw _ k hkey ks hints wid _ (List.getElem?_eq_getElem hwid) h.2)

end Words

theorem filter_map_sublist {α β κ : Type} (f : α → Option β) (g : β → κ) (h : α → κ)
    (hf : ∀ a b, f a = some b → g b = h a) (l : List α) :
    ((l.filterMap f).map g).Sublist (l.map h) := by
  induction l with
  | nil => exact List.Sublist.slnil
  | cons a l ih =>
    rw [List.filterMap_cons]
    cases ha : f a with
    | none => exact ih.cons _
    | some b =>
      rw [List.map_cons, List.map_cons, hf a b ha]
      exact ih.cons_cons _

theorem scan_nodup (raw : List RawEntry) (keys : Bytes) (hints : Option Bytes) (target : ℤ) :
    ((scan raw keys hints target).map Prod.fst).Nodup := by
  unfold scan
  split
  · unfold scanChars
    dsimp only
    split
    · exact List.nodup_nil
    · have hchars := (char_table_nodup raw).map (f := Ime.utf8) (by
        intro a b h
        have htext : Ime.text [a] = Ime.text [b] := by simpa [Ime.text] using h
        exact List.singleton_injective (Ime.text_injective htext))
      rw [List.map_map] at hchars
      apply (filter_map_sublist _ _ _ ?_ _).nodup hchars
      intro p m hm
      obtain ⟨freq, -, rfl⟩ := Option.map_eq_some_iff.mp hm
      rfl
  · have hwords := (word_table_nodup raw (buildCharTableV4 raw)).map (f := Ime.text)
      (fun a b h => Ime.text_injective h)
    rw [List.map_map] at hwords
    rw [scan_words]
    apply (filter_map_sublist _ _ _ ?_ _).nodup hwords
    intro w m hm
    unfold wordFound at hm
    split at hm
    · cases hm
      rfl
    · cases hm

theorem effective_keys_head (k : UInt8) (ks : Bytes) (h : (effectiveKeys (k::ks)).1 ≠ []) :
    (effectiveKeys (k::ks)).1.head? = some k := by
  unfold effectiveKeys at *
  split at h
  · rename_i hlast
    rw [if_pos hlast]
    dsimp only at h ⊢
    cases ks with
    | nil => simp at h
    | cons k' ks => simp
  · rename_i hlast
    rw [if_neg hlast]
    rfl

theorem search_best {raw : List RawEntry} {prefixes : List ℕ} {t : CompositionSearcher}
    (hd : Decodes (buildCharTableV4 raw) (dictGroups raw) prefixes t)
    (hcount : (dictWords raw).length < 4294967296) (std : DescendingSort) (k : UInt8)
    (hk : 0x20 ≤ k ∧ k < 0x38) (ks : Bytes) (hints : Option Bytes) (target : ℤ)
    (hfit : target ≠ 1 → WordsFit raw target) (htarget : -1 ≤ target ∧ target ≤ 7)
    (maxResults : ℕ) (hmax : 1 ≤ maxResults) (hchars : target = 1 → maxResults ≤ 256) :
    Best Prod.snd Prod.fst maxResults (scan raw (k::ks) hints target)
      ((t.search std (k::ks) hints target maxResults).map (fun c => (c.word, c.freq))) := by
  have hnodup := scan_nodup raw (k::ks) hints target
  have hbyte := key_byte k hk
  have hchecked : t.checkedHints hints = hints := by rw [checkedHints, hd.hasPhonemePos, if_pos rfl]
  rw [search, if_neg (by simp [hd.loaded]; omega)]
  unfold scan at hnodup ⊢
  by_cases hone : target = 1
  · rw [if_pos hone] at hnodup ⊢
    rw [if_pos hone, searchChars]
    dsimp only
    rw [if_neg hbyte, hchecked, Nat.min_eq_left (hchars hone)]
    unfold scanChars at hnodup ⊢
    dsimp only at hnodup ⊢
    by_cases heff : (effectiveKeys (k::ks)).1 = []
    · rw [if_pos heff, if_pos heff]
      exact ⟨by simp, by simp, by simp, by simp, by simp⟩
    · rw [if_neg heff] at hnodup ⊢
      rw [if_neg heff, List.map_map]
      exact best_collect Pick.freq Prod.snd Prod.fst _ (fun _ => rfl) std maxResults hmax _ _
        (chars_found hd k hk _ (effective_keys_head k ks heff) _ hints) hnodup
  · rw [if_neg hone] at hnodup ⊢
    rw [if_neg hone]
    dsimp only
    rw [if_neg hbyte]
    exact best_collect Candidate.freq Prod.snd Prod.fst _ (fun _ => rfl) std maxResults hmax _ _
      (words_found hd hcount target (hfit hone) ⟨htarget.1, htarget.2, hone⟩ k hk ks hints) hnodup

/-- The search returns distinct matches in descending order of frequency, as many
as there are and fit, and leaves out none above those it returns. -/
theorem search_scan (raw : List RawEntry) (enDat enVal blob : Bytes)
    (h : buildMiedV4 raw enDat enVal = some blob)
    (hfit : ∀ w ∈ dictWords raw, (Ime.text w.word).length < kCandidateMaxBytes)
    (t₀ : CompositionSearcher) (std : DescendingSort) (k : UInt8) (hk : 0x20 ≤ k ∧ k < 0x38)
    (ks : Bytes) (hints : Option Bytes) (target : ℤ) (htarget : -1 ≤ target ∧ target ≤ 7)
    (maxResults : ℕ) (hmax : 1 ≤ maxResults) (hchars : target = 1 → maxResults ≤ 256) :
    Best Prod.snd Prod.fst maxResults (scan raw (k::ks) hints target)
      (((t₀.loadFromMemory (some blob)).1.search std (k::ks) hints target maxResults).map
        (fun c => (c.word, c.freq))) := by
  obtain ⟨t, hload, hd, hcount⟩ := build_decodes raw enDat enVal blob h t₀
  rw [hload]
  exact search_best hd hcount std k hk ks hints target (fun _ w hw _ => hfit w hw) htarget
    maxResults hmax hchars

/-- 銀行 is the word of two characters that ㄧ starts. -/
theorem sample_search : ∃ blob, buildMiedV4 sampleEntries [0x4D] [0x49] = some blob ∧
    scan sampleEntries [0x29] none 2 = [(Ime.text ['銀', '行'], 50)] ∧
    Best Prod.snd Prod.fst 3 (scan sampleEntries [0x29] none 2)
      (((CompositionSearcher.init.loadFromMemory (some blob)).1.search .stable [0x29] none 2 3).map
        (fun c => (c.word, c.freq))) := by
  have hsome : (buildMiedV4 sampleEntries [0x4D] [0x49]).isSome = true := by decide +kernel
  have hfit : ∀ w ∈ dictWords sampleEntries, (Ime.text w.word).length < kCandidateMaxBytes := by
    decide +kernel
  obtain ⟨blob, hblob⟩ := Option.isSome_iff_exists.mp hsome
  refine ⟨blob, hblob, by decide +kernel, ?_⟩
  exact search_scan sampleEntries [0x4D] [0x49] blob hblob hfit .init .stable 0x29 (by decide) [] none
    2 (by decide) 3 (by decide) (by decide)

end MokyaLora.CompositionScan
