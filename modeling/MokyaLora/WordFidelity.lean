import MokyaLora.ImeReach

/-!
# The strings of the candidates

A candidate holds 31 bytes and a terminator. The characters of a word are copied
while they fit, so a longer word is listed by a front of it.
-/

set_option autoImplicit false

namespace MokyaLora.CompositionScan
open Lib.Fields Lib.TopK GenDict
open CompositionSearcher hiding charReadings

def Fits (w : List Char) : Prop := (Ime.text w).length < kCandidateMaxBytes

/-- The longest front of the word that fits. -/
structure Cut (w v : List Char) : Prop where
  front : v <+: w
  fits : Fits v
  most : ∀ c, v++[c] <+: w → ¬ Fits (v++[c])

def Whole (raw : List RawEntry) (s : Bytes) : Prop :=
  (∃ p ∈ buildCharTableV4 raw, s = Ime.utf8 p.1) ∨ ∃ w ∈ dictWords raw, s = Ime.text w.word

theorem fits_front {v w : List Char} (h : v <+: w) (hw : Fits w) : Fits v := by
  obtain ⟨rest, rfl⟩ := h
  rw [Fits, Ime.text, List.flatMap_append, List.length_append] at hw
  exact lt_of_le_of_lt (Nat.le_add_right _ _) hw

theorem cut_self (w : List Char) (h : Fits w) : Cut w w where
  front := List.prefix_rfl
  fits := h
  most c hc := by
    have := hc.length_le
    rw [List.length_append, List.length_singleton] at this
    omega

/-- Of two fronts that fit a shorter one could go on. -/
theorem Cut.le {w v u : List Char} (hv : Cut w v) (hu : Cut w u) : u.length ≤ v.length := by
  by_contra hlt
  have hpre := List.prefix_of_prefix_length_le hv.front hu.front (by omega)
  obtain ⟨rest, rfl⟩ := hpre
  cases rest with
  | nil => simp at hlt
  | cons c rest =>
    have hnext : v++[c] <+: v++c::rest := ⟨rest, by simp⟩
    exact hv.most c (hnext.trans hu.front) (fits_front hnext hu.fits)

theorem Cut.unique {w v u : List Char} (hv : Cut w v) (hu : Cut w u) : v = u :=
  (List.prefix_of_prefix_length_le hv.front hu.front (hu.le hv)).eq_of_length
    (le_antisymm (hu.le hv) (hv.le hu))

section Copy

variable {table : CharTable} {groups : List (List WordEntry)} {prefixes : List ℕ}
  {t : CompositionSearcher}

theorem append_chars_cut (hd : Decodes table groups prefixes t) (ids : List ℕ) (word : List Char)
    (hspell : ids.map (fun cid => (table[cid]?).map Prod.fst) = word.map some) (written : Bytes)
    (hroom : written.length < kCandidateMaxBytes) :
    ∃ v, t.appendChars ids written = written++Ime.text v ∧ v <+: word ∧
      written.length+(Ime.text v).length < kCandidateMaxBytes ∧
      ∀ c, v++[c] <+: word → kCandidateMaxBytes ≤ written.length+(Ime.text (v++[c])).length := by
  induction ids generalizing word written with
  | nil =>
    have hnil : word = [] := by simpa using hspell.symm
    subst hnil
    refine ⟨[], by simp [appendChars, Ime.text], List.prefix_rfl, by simpa [Ime.text] using hroom, ?_⟩
    intro c hc
    simp at hc
  | cons cid ids ih =>
    cases word with
    | nil => simp at hspell
    | cons c word =>
      simp only [List.map_cons, List.cons.injEq] at hspell
      obtain ⟨p, hp, hc⟩ := Option.map_eq_some_iff.mp hspell.1
      obtain ⟨hlt, hget⟩ := List.getElem?_eq_some_iff.mp hp
      have hdata := (hd.charData cid hlt).1
      rw [hget, hc] at hdata
      rw [appendChars, hdata]
      split
      · rename_i hfull
        refine ⟨[], by simp [Ime.text], List.nil_prefix, by simpa [Ime.text] using hroom, ?_⟩
        intro d hd'
        obtain ⟨rfl, -⟩ := List.cons_prefix_cons.mp hd'
        simp only [kCandidateMaxBytes] at *
        simp only [Ime.text, List.nil_append, List.flatMap_singleton]
        omega
      · rename_i hfit
        have hnext : (written++Ime.utf8 c).length < kCandidateMaxBytes := by
          rw [List.length_append]
          simp only [kCandidateMaxBytes] at *
          omega
        obtain ⟨v, happ, hpre, hlen, hmost⟩ := ih word hspell.2 _ hnext
        rw [List.length_append] at hlen hmost
        have htext : ∀ u, Ime.text (c::u) = Ime.utf8 c++Ime.text u := fun u => by simp [Ime.text]
        refine ⟨c::v, ?_, List.cons_prefix_cons.mpr ⟨rfl, hpre⟩, ?_, ?_⟩
        · rw [happ, htext, List.append_assoc]
        · rw [htext, List.length_append]
          omega
        · intro d hd'
          rw [List.cons_append, List.cons_prefix_cons] at hd'
          have := hmost d hd'.2
          rw [List.cons_append, htext, List.length_append]
          omega

end Copy

section Candidates

variable {raw : List RawEntry} {prefixes : List ℕ} {t : CompositionSearcher}

theorem word_candidate_cut (hd : Decodes (buildCharTableV4 raw) (dictGroups raw) prefixes t)
    (w : WordEntry) (hw : WordOk (buildCharTableV4 raw) w) :
    ∃ v, Cut w.word v ∧ (t.wordCandidate w.stored).word = Ime.text v := by
  obtain ⟨v, happ, hpre, hlen, hmost⟩ := append_chars_cut hd w.charIds _ hw.spells [] (by decide)
  simp only [List.length_nil, Nat.zero_add, List.nil_append] at happ hlen hmost
  refine ⟨v, ⟨hpre, hlen, fun c hc => not_lt.mpr (hmost c hc)⟩, ?_⟩
  simp only [wordCandidate, Candidate.ofBytes, WordEntry.stored, happ]
  exact cstr_text v (fun c hc => word_cjk raw w hw c (hpre.subset hc))

theorem mem_sorted {α : Type} (std : DescendingSort) (rank : α → ℕ) (cap : ℕ) (xs : List α) (x : α)
    (hcap : 0 < cap) (hx : x ∈ std.sort rank (collect rank cap xs)) : x ∈ xs := by
  obtain ⟨⟨rest, hperm, -⟩, -, -⟩ := sorted_collect rank std cap hcap xs
  exact hperm.mem_iff.mp (List.mem_append_left rest hx)

theorem chars_source (hd : Decodes (buildCharTableV4 raw) (dictGroups raw) prefixes t)
    (std : DescendingSort) (keys : Bytes) (hints : Option Bytes) (maxResults : ℕ)
    (hmax : 0 < maxResults) (c : Candidate) (hc : c ∈ t.searchChars std keys hints maxResults) :
    ∃ p ∈ buildCharTableV4 raw, c.word = Ime.utf8 p.1 := by
  unfold searchChars at hc
  cases keys with
  | nil => cases hc
  | cons k ks =>
    dsimp only at hc
    split at hc
    · cases hc
    · rename_i hbyte
      have hk : 0x20 ≤ k ∧ k < 0x38 :=
        ⟨UInt8.not_lt.mp (fun h => hbyte (Or.inl h)), UInt8.not_le.mp (fun h => hbyte (Or.inr h))⟩
      split at hc
      · cases hc
      · obtain ⟨pick, hpick, rfl⟩ := List.mem_map.mp hc
        obtain ⟨cid, hcid, hfound⟩ := List.mem_filterMap.mp (mem_sorted std _ _ _ _ (by omega) hpick)
        obtain ⟨hslot, heq⟩ := key_slot k hk
        have hchars := hd.charsFrom _ hslot
        rw [heq] at hchars
        rw [hchars, mem_chars_by_key] at hcid
        have hok := char_table_ok raw _ (List.getElem_mem hcid.1)
        have hword := pick_char hd (effectiveKeys (k::ks)).1 (effectiveKeys (k::ks)).2
          (t.checkedHints hints) cid hcid.1 hok
        rw [hfound, Option.map_some] at hword
        obtain ⟨freq, -, hmatch⟩ := Option.map_eq_some_iff.mp hword.symm
        exact ⟨_, List.getElem_mem hcid.1, (congrArg Prod.fst hmatch).symm⟩

theorem word_source (hd : Decodes (buildCharTableV4 raw) (dictGroups raw) prefixes t)
    (range : ℕ × ℕ) (keys : Bytes) (hints : Option Bytes) (wid : ℕ) (c : Candidate)
    (hc : t.matchWord range keys hints wid = some c) :
    ∃ w ∈ dictWords raw, ∃ v, Cut w.word v ∧ c.word = Ime.text v := by
  unfold matchWord at hc
  split at hc
  · cases hc
  · rw [hd.word wid] at hc
    cases hw : (dictGroups raw).flatten[wid]? with
    | none =>
      rw [hw] at hc
      cases hc
    | some w =>
      rw [hw, Option.map_some] at hc
      dsimp only at hc
      split at hc
      · cases hc
        have hmem : w ∈ dictWords raw := List.mem_of_getElem? hw
        exact ⟨w, hmem, word_candidate_cut hd w (dict_words_ok raw w hmem)⟩
      · cases hc

/-- Every candidate is a whole character or the front of a word. -/
theorem candidate_source (hd : Decodes (buildCharTableV4 raw) (dictGroups raw) prefixes t)
    (std : DescendingSort) (keys : Bytes) (hints : Option Bytes) (target : ℤ) (maxResults : ℕ)
    (c : Candidate) (hc : c ∈ t.search std keys hints target maxResults) :
    (∃ p ∈ buildCharTableV4 raw, c.word = Ime.utf8 p.1) ∨
    ∃ w ∈ dictWords raw, ∃ v, Cut w.word v ∧ c.word = Ime.text v := by
  unfold search at hc
  split at hc
  · cases hc
  · rename_i hload
    have hmax : 0 < maxResults := Nat.pos_of_ne_zero (fun h => hload (Or.inr h))
    split at hc
    · exact Or.inl (chars_source hd std keys hints maxResults hmax c hc)
    · right
      cases keys with
      | nil => cases hc
      | cons k ks =>
        dsimp only at hc
        split at hc
        · cases hc
        · obtain ⟨wid, -, hfound⟩ := List.mem_filterMap.mp (mem_sorted std _ _ _ _ hmax hc)
          exact word_source hd _ _ hints wid c hfound

theorem word_listed (hd : Decodes (buildCharTableV4 raw) (dictGroups raw) prefixes t)
    (hcount : (dictWords raw).length < 4294967296) (std : DescendingSort) (w : WordEntry)
    (hw : w ∈ dictWords raw) :
    ∃ keys maxResults, t.wordCandidate w.stored ∈ t.search std keys none 0 maxResults := by
  have hentry : Ime.Entry raw w.word (chosenReadings (buildCharTableV4 raw) w) :=
    Ime.Entry.word w hw
  obtain ⟨k, ks, hkeys, hlo, hup, -⟩ := Ime.entry_keys raw _ _ hentry
  have hmatch : wordMatches (buildCharTableV4 raw) (k::ks) none w = true :=
    hkeys ▸ Ime.recurse_own _ (Ime.entry_ok raw _ _ hentry)
  have hk : 0x20 ≤ k ∧ k < 0x38 :=
    ⟨UInt8.le_trans (by decide) hlo, UInt8.lt_of_le_of_lt hup (by decide)⟩
  obtain ⟨wid, hwid⟩ := List.getElem?_of_mem hw
  have hindexed := indexed_match raw _ k (key_slot k hk).2 ks none wid w hwid hmatch
  have hfound : t.wordCandidate w.stored ∈ ((t.charsFrom k).flatMap t.wordsFrom).filterMap
      (t.matchWord (t.allowedRange 0) (k::ks) none) := by
    rw [indexed_ids hd k hk]
    apply List.mem_filterMap.mpr ⟨wid, hindexed, _⟩
    rw [match_word_at hd hcount 0 (by decide) _ _ wid w hwid, if_pos]
    rw [Bool.and_eq_true]
    exact ⟨rfl, hmatch⟩
  generalize hxs : ((t.charsFrom k).flatMap t.wordsFrom).filterMap
    (t.matchWord (t.allowedRange 0) (k::ks) none) = xs at hfound
  have hcap := List.length_pos_of_mem hfound
  refine ⟨k::ks, xs.length, ?_⟩
  have hload : ¬ (¬ t.loaded = true ∨ xs.length = 0) := by
    rintro (hno | hzero)
    · exact hno hd.loaded
    · omega
  rw [search, if_neg hload, if_neg (by decide)]
  dsimp only
  rw [if_neg (key_byte k hk), hxs]
  obtain ⟨⟨rest, hperm, -⟩, hlen, -⟩ := sorted_collect Candidate.freq std xs.length hcap xs
  have hnil : rest = [] := by
    have := hperm.length_eq
    rw [List.length_append, hlen, Nat.min_self] at this
    exact List.eq_nil_of_length_eq_zero (by omega)
  rw [hnil, List.append_nil] at hperm
  exact hperm.mem_iff.mpr hfound

/-- A front that is as long as it can be is not a single character. -/
theorem cut_not_char (w : WordEntry) (hw : WordOk (buildCharTableV4 raw) w) (v : List Char)
    (hv : Cut w.word v) (c : Char) : Ime.text v ≠ Ime.utf8 c := by
  intro heq
  have hone : v = [c] := by
    apply Ime.text_injective
    simpa [Ime.text] using heq
  have hlen := hw.length
  rw [← hw.word_length] at hlen
  obtain ⟨rest, hrest⟩ := hv.front
  rw [hone] at hrest
  cases rest with
  | nil =>
    rw [← hrest] at hlen
    simp at hlen
  | cons d rest =>
    apply hv.most d ⟨rest, by rw [← hrest, hone]; simp⟩
    have hc := Ime.utf8_length c
    have hd := Ime.utf8_length d
    rw [hone, Fits]
    simp only [Ime.text, List.singleton_append, List.flatMap_cons, List.flatMap_nil,
      List.length_append, List.length_nil, kCandidateMaxBytes]
    omega

end Candidates

/-- All candidates of all searches are whole exactly when every word that does not fit
is cut to another word of the dictionary. -/
theorem candidates_whole_iff (raw : List RawEntry) (enDat enVal blob : Bytes)
    (h : buildMiedV4 raw enDat enVal = some blob) (t₀ : CompositionSearcher)
    (std : DescendingSort) :
    (∀ keys hints target maxResults,
      ∀ c ∈ (t₀.loadFromMemory (some blob)).1.search std keys hints target maxResults,
        Whole raw c.word) ↔
    ∀ w ∈ dictWords raw, Fits w.word ∨ ∃ v ∈ dictWords raw, Cut w.word v.word := by
  obtain ⟨t, hload, hd, hcount⟩ := build_decodes raw enDat enVal blob h t₀
  rw [hload]
  constructor
  · intro hall w hw
    have hok := dict_words_ok raw w hw
    obtain ⟨keys, maxResults, hlisted⟩ := word_listed hd hcount std w hw
    obtain ⟨v, hcut, hword⟩ := word_candidate_cut hd w hok
    rcases hall keys none 0 maxResults _ hlisted with ⟨p, -, hp⟩ | ⟨u, hu, htext⟩
    · exact absurd (hword ▸ hp) (cut_not_char w hok v hcut p.1)
    · rw [hword] at htext
      exact Or.inr ⟨u, hu, Ime.text_injective htext ▸ hcut⟩
  · intro hall keys hints target maxResults c hc
    rcases candidate_source hd std keys hints target maxResults c hc with hchar | ⟨w, hw, v, hcut, hv⟩
    · exact Or.inl hchar
    · rcases hall w hw with hfits | ⟨u, hu, hcut'⟩
      · exact Or.inr ⟨w, hw, by rw [hv, hcut.unique (cut_self w.word hfits)]⟩
      · exact Or.inr ⟨u, hu, by rw [hv, hcut.unique hcut']⟩

theorem sample_whole : ∃ blob, buildMiedV4 sampleEntries [0x4D] [0x49] = some blob ∧
    ∀ keys hints target maxResults,
      ∀ c ∈ (CompositionSearcher.init.loadFromMemory (some blob)).1.search .stable keys hints target
        maxResults, Whole sampleEntries c.word := by
  have hsome : (buildMiedV4 sampleEntries [0x4D] [0x49]).isSome = true := by decide +kernel
  have hfit : ∀ w ∈ dictWords sampleEntries, (Ime.text w.word).length < kCandidateMaxBytes := by
    decide +kernel
  obtain ⟨blob, hblob⟩ := Option.isSome_iff_exists.mp hsome
  exact ⟨blob, hblob, (candidates_whole_iff sampleEntries [0x4D] [0x49] blob hblob .init .stable).mpr
    (fun w hw => Or.inl (hfit w hw))⟩

def elevenEntries : List RawEntry :=
  [⟨List.replicate 11 '八', 1, (List.replicate 11 ['ㄅ', 'ㄚ', ' ']).flatten⟩]

/-- Its candidate has ten of them. -/
theorem eleven_cut : ∃ blob, buildMiedV4 elevenEntries [] [] = some blob ∧
    ∃ c ∈ (CompositionSearcher.init.loadFromMemory (some blob)).1.search .stable [0x21] none 0 1,
      c.word = Ime.text (List.replicate 10 '八') ∧ ¬ Whole elevenEntries c.word := by
  have hsome : (buildMiedV4 elevenEntries [] []).isSome = true := by decide +kernel
  have hrun : ∀ blob ∈ buildMiedV4 elevenEntries [] [],
      ((CompositionSearcher.init.loadFromMemory (some blob)).1.search .stable [0x21] none 0 1).map
        Candidate.word = [Ime.text (List.replicate 10 '八')] := by
    decide +kernel
  have hchars : ∀ p ∈ buildCharTableV4 elevenEntries,
      Ime.utf8 p.1 ≠ Ime.text (List.replicate 10 '八') := by decide +kernel
  have hwords : ∀ w ∈ dictWords elevenEntries,
      Ime.text w.word ≠ Ime.text (List.replicate 10 '八') := by decide +kernel
  obtain ⟨blob, hblob⟩ := Option.isSome_iff_exists.mp hsome
  have hword := hrun blob hblob
  obtain ⟨c, hc, -⟩ := List.map_eq_singleton_iff.mp hword
  rw [hc, List.map_singleton, List.singleton_inj] at hword
  refine ⟨blob, hblob, c, by rw [hc]; simp, hword, ?_⟩
  rintro (⟨p, hp, heq⟩ | ⟨w, hw, heq⟩)
  · exact hchars p hp (heq.symm.trans hword)
  · exact hwords w hw (heq.symm.trans hword)

end MokyaLora.CompositionScan
