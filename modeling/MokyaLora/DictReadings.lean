import Mathlib
import MokyaLora.DictWellFormed

/-!
# What the tables record of the raw entries

The characters and the words are collected in two passes with filters of their own. The
first skips syllables without keys, the second does not: a word whose best entry has such a
syllable gets the default reading for it.
-/

set_option autoImplicit false

namespace MokyaLora.GenDict
open Lib.Fields

def Reading.key (r : Reading) : ReadingKey := (r.keyseq, r.pos, r.tone)

def RawEntry.sylls (e : RawEntry) : List (List Char) := parseReadingSyllables e.reading

def Uses (e : RawEntry) (ch : Char) (key : ReadingKey) : Prop :=
  e.word.all isCjk = true ∧ e.sylls.length = e.word.length ∧
    ∃ syl, (ch, syl) ∈ e.word.zip e.sylls ∧ readingKey syl = key

abbrev Sighting := Char × ReadingKey × ℕ

def sighting (effFreq : ℕ) (p : Char × List Char) : List Sighting :=
  if (readingKey p.2).1 = [] then [] else [(p.1, readingKey p.2, effFreq)]

def entrySightings (e : RawEntry) : List Sighting :=
  if ¬ e.word.all isCjk then []
  else if e.sylls.length ≠ e.word.length then []
  else (e.word.zip e.sylls).flatMap (sighting (max e.freq 1).toNat)

theorem mem_entry_sightings (e : RawEntry) (ch : Char) (key : ReadingKey) (n : ℕ) :
    (ch, key, n) ∈ entrySightings e ↔ Uses e ch key ∧ key.1 ≠ [] ∧ n = (max e.freq 1).toNat := by
  rw [entrySightings, Uses]
  by_cases hcjk : e.word.all isCjk = true
  · rw [if_neg (not_not.mpr hcjk)]
    by_cases hlen : e.sylls.length = e.word.length
    · rw [if_neg (not_not.mpr hlen), List.mem_flatMap]
      constructor
      · rintro ⟨⟨c, syl⟩, hmem, hs⟩
        rw [sighting] at hs
        split at hs
        · exact absurd hs List.not_mem_nil
        · rename_i hkey
          obtain ⟨rfl, rfl, rfl⟩ := List.mem_singleton.mp hs
          exact ⟨⟨hcjk, hlen, syl, hmem, rfl⟩, hkey, rfl⟩
      · rintro ⟨⟨-, -, syl, hmem, rfl⟩, hkey, rfl⟩
        refine ⟨(ch, syl), hmem, ?_⟩
        rw [sighting, if_neg hkey]
        exact List.mem_singleton_self _
    · rw [if_pos hlen]
      simp [hlen]
  · rw [if_pos hcjk]
    simp [hcjk]

def seen (accum : Accum) (ch : Char) (key : ReadingKey) : Option ℕ :=
  Lib.Dict.get? ((Lib.Dict.get? accum ch).getD []) key

/-- Each reading seen is recorded once, with its greatest frequency. -/
structure Recorded (S : List Sighting) (accum : Accum) : Prop where
  greatest : ∀ ch key n, seen accum ch key = some n → IsGreatest {m | (ch, key, m) ∈ S} n
  all : ∀ ch key m, (ch, key, m) ∈ S → (seen accum ch key).isSome = true
  nodup : ∀ ch, (Lib.Dict.keys ((Lib.Dict.get? accum ch).getD [])).Nodup

theorem recorded_nil : Recorded [] [] where
  greatest := fun _ _ _ h => nomatch h
  all := fun _ _ _ h => absurd h List.not_mem_nil
  nodup := fun _ => List.nodup_nil

theorem seen_set (accum : Accum) (ch c : Char) (chDict : List (ReadingKey × ℕ)) (key : ReadingKey) :
    seen (Lib.Dict.set accum ch chDict) c key =
      if c = ch then Lib.Dict.get? chDict key else seen accum c key := by
  rw [seen]
  by_cases hc : c = ch
  · rw [if_pos hc, hc, Lib.Dict.get?_set_self, Option.getD_some]
  · rw [if_neg hc, Lib.Dict.get?_set_of_ne _ _ _ _ hc, seen]

theorem record_raise (effFreq : ℕ) (accum : Accum) (ch : Char) (syl : List Char)
    (hkey : (readingKey syl).1 ≠ []) : recordReading effFreq accum (ch, syl) =
      Lib.Dict.set accum ch
        (Lib.Dict.raise ((Lib.Dict.get? accum ch).getD []) (readingKey syl) effFreq) := by
  rw [recordReading, Lib.Dict.raise]
  dsimp only
  rw [if_neg hkey]
  split <;> rfl

theorem record_seen (effFreq : ℕ) (hf : 0 < effFreq) (accum : Accum) (ch : Char) (syl : List Char)
    (hkey : (readingKey syl).1 ≠ []) (c : Char) (k : ReadingKey) :
    seen (recordReading effFreq accum (ch, syl)) c k =
      if c = ch ∧ k = readingKey syl then some (max ((seen accum c k).getD 0) effFreq)
      else seen accum c k := by
  rw [record_raise effFreq accum ch syl hkey, seen_set, Lib.Dict.raise_get _ _ _ hf]
  by_cases hc : c = ch
  · subst hc
    rw [if_pos rfl]
    by_cases hk : k = readingKey syl
    · rw [if_pos hk, if_pos ⟨rfl, hk⟩, seen]
    · rw [if_neg hk, if_neg (fun h => hk h.2), seen]
  · rw [if_neg hc, if_neg (fun h => hc h.1)]

theorem record_nodup (effFreq : ℕ) (accum : Accum) (ch : Char) (syl : List Char)
    (hkey : (readingKey syl).1 ≠ [])
    (h : ∀ c, (Lib.Dict.keys ((Lib.Dict.get? accum c).getD [])).Nodup) (c : Char) :
    (Lib.Dict.keys
      ((Lib.Dict.get? (recordReading effFreq accum (ch, syl)) c).getD [])).Nodup := by
  rw [record_raise effFreq accum ch syl hkey]
  by_cases hc : c = ch
  · rw [hc, Lib.Dict.get?_set_self]
    exact Lib.Dict.raise_nodup _ _ _ (h ch)
  · rw [Lib.Dict.get?_set_of_ne _ _ _ _ hc]
    exact h c

theorem record_recorded (effFreq : ℕ) (hf : 0 < effFreq) (S : List Sighting) (accum : Accum)
    (h : Recorded S accum) (p : Char × List Char) :
    Recorded (S++sighting effFreq p) (recordReading effFreq accum p) := by
  obtain ⟨ch, syl⟩ := p
  by_cases hkey : (readingKey syl).1 = []
  · rw [sighting, if_pos hkey, List.append_nil, recordReading]
    dsimp only
    rw [if_pos hkey]
    exact h
  have hmem : ∀ c k m, (c, k, m) ∈ S++sighting effFreq (ch, syl) ↔
      (c, k, m) ∈ S ∨ (c = ch ∧ k = readingKey syl) ∧ m = effFreq := by
    intro c k m
    rw [sighting, if_neg hkey, List.mem_append, List.mem_singleton]
    simp only [Prod.mk.injEq, and_assoc]
  refine ⟨fun c k n hn => ?_, fun c k m hm => ?_,
    fun c => record_nodup effFreq accum ch syl hkey h.nodup c⟩
  · rw [record_seen effFreq hf accum ch syl hkey] at hn
    by_cases hsame : c = ch ∧ k = readingKey syl
    · rw [if_pos hsame, Option.some.injEq] at hn
      have hset : {m | (c, k, m) ∈ S++sighting effFreq (ch, syl)} =
          insert effFreq {m | (c, k, m) ∈ S} := by
        ext m
        rw [Set.mem_ofPred_eq, hmem, Set.mem_insert_iff, Set.mem_ofPred_eq]
        tauto
      rw [hset, ← hn]
      cases hs : seen accum c k with
      | none =>
        have hempty : {m | (c, k, m) ∈ S} = ∅ := by
          ext m
          refine ⟨fun hm => ?_, fun hm => hm.elim⟩
          exact absurd (h.all c k m hm) (by rw [hs]; exact Bool.false_ne_true)
        rw [hempty, Option.getD_none, Nat.zero_max, LawfulSingleton.insert_empty_eq]
        exact isGreatest_singleton
      | some m =>
        rw [Option.getD_some, max_comm]
        exact (h.greatest c k m hs).insert effFreq
    · rw [if_neg hsame] at hn
      have hset : {m | (c, k, m) ∈ S++sighting effFreq (ch, syl)} = {m | (c, k, m) ∈ S} := by
        ext m
        rw [Set.mem_ofPred_eq, hmem, Set.mem_ofPred_eq]
        tauto
      rw [hset]
      exact h.greatest c k n hn
  · rw [record_seen effFreq hf accum ch syl hkey]
    split
    · rfl
    · rename_i hother
      exact h.all c k m (((hmem c k m).mp hm).resolve_right (fun hs => hother hs.1))

theorem record_entry_sylls (accum : Accum) (e : RawEntry) : recordEntry accum e =
    if ¬ e.word.all isCjk then accum
    else if e.sylls.length ≠ e.word.length then accum
    else (e.word.zip e.sylls).foldl (recordReading (max e.freq 1).toNat) accum :=
  rfl

theorem record_entry_recorded (S : List Sighting) (accum : Accum) (h : Recorded S accum)
    (e : RawEntry) : Recorded (S++entrySightings e) (recordEntry accum e) := by
  have hpos : 0 < (max e.freq 1).toNat := by omega
  have hfold : ∀ ps : List (Char × List Char),
      Recorded (S++ps.flatMap (sighting (max e.freq 1).toNat))
        (ps.foldl (recordReading (max e.freq 1).toNat) accum) := by
    intro ps
    induction ps using List.reverseRecOn with
    | nil => rwa [List.flatMap_nil, List.append_nil]
    | append_singleton ps p ih =>
      rw [List.flatMap_append, List.flatMap_singleton, ← List.append_assoc, List.foldl_append]
      exact record_recorded _ hpos _ _ ih p
  rw [entrySightings, record_entry_sylls]
  split
  · rwa [List.append_nil]
  · by_cases hlen : e.sylls.length ≠ e.word.length
    · rwa [if_pos hlen, if_pos hlen, List.append_nil]
    · rw [if_neg hlen, if_neg hlen]
      exact hfold _

theorem accumulate_recorded (raw : List RawEntry) :
    Recorded (raw.flatMap entrySightings) (accumulate raw) := by
  induction raw using List.reverseRecOn with
  | nil => exact recorded_nil
  | append_singleton raw e ih =>
    rw [List.flatMap_append, List.flatMap_singleton, accumulate, List.foldl_append]
    exact record_entry_recorded _ _ ih e

theorem mem_sightings (raw : List RawEntry) (ch : Char) (key : ReadingKey) (n : ℕ) :
    (ch, key, n) ∈ raw.flatMap entrySightings ↔
      ∃ e ∈ raw, Uses e ch key ∧ key.1 ≠ [] ∧ n = (max e.freq 1).toNat := by
  rw [List.mem_flatMap]
  exact exists_congr (fun e => and_congr_right (fun _ => mem_entry_sightings e ch key n))

theorem mem_readings (raw : List RawEntry) (p : Char × List Reading)
    (hp : p ∈ buildCharTableV4 raw) (r : Reading) :
    r ∈ p.2 ↔ seen (accumulate raw) p.1 r.key = some r.freq := by
  obtain ⟨ch, -, rfl⟩ := List.mem_map.mp hp
  rw [seen, Lib.Dict.get?_eq_some_iff _ ((accumulate_recorded raw).nodup ch), sortedReadings,
    List.mem_insertionSort, List.mem_map]
  constructor
  · rintro ⟨⟨key, n⟩, hmem, rfl⟩
    exact hmem
  · exact fun hmem => ⟨_, hmem, rfl⟩

theorem readings_nodup (raw : List RawEntry) (p : Char × List Reading)
    (hp : p ∈ buildCharTableV4 raw) : (p.2.map Reading.key).Nodup := by
  obtain ⟨ch, -, rfl⟩ := List.mem_map.mp hp
  have hperm := List.perm_insertionSort (fun a b : Reading => b.freq ≤ a.freq)
    (((Lib.Dict.get? (accumulate raw) ch).getD []).map
      (fun p => (⟨p.1.1, p.1.2.1, p.1.2.2, p.2⟩ : Reading)))
  apply (hperm.map Reading.key).nodup_iff.mpr
  rw [List.map_map]
  exact (accumulate_recorded raw).nodup ch

theorem seen_mem (raw : List RawEntry) (ch : Char) (key : ReadingKey) (n : ℕ)
    (h : seen (accumulate raw) ch key = some n) :
    ∃ p ∈ buildCharTableV4 raw, p.1 = ch ∧ ∃ r ∈ p.2, r.key = key := by
  have hch : ch ∈ Lib.Dict.keys (accumulate raw) := by
    rw [← Lib.Dict.get?_isSome]
    cases hg : Lib.Dict.get? (accumulate raw) ch with
    | none =>
      rw [seen, hg] at h
      exact nomatch h
    | some chDict => rfl
  have hp : (ch, sortedReadings ((Lib.Dict.get? (accumulate raw) ch).getD [])) ∈
      buildCharTableV4 raw := List.mem_map.mpr ⟨ch, (List.mem_insertionSort _).mpr hch, rfl⟩
  exact ⟨_, hp, rfl, ⟨key.1, key.2.1, key.2.2, n⟩, (mem_readings raw _ hp _).mpr h, rfl⟩

theorem used_mem (raw : List RawEntry) (e : RawEntry) (he : e ∈ raw) (ch : Char) (key : ReadingKey)
    (huse : Uses e ch key) (hkey : key.1 ≠ []) :
    ∃ p ∈ buildCharTableV4 raw, p.1 = ch ∧ ∃ r ∈ p.2, r.key = key := by
  have hall := (accumulate_recorded raw).all ch key _
    ((mem_sightings raw ch key _).mpr ⟨e, he, huse, hkey, rfl⟩)
  obtain ⟨n, hn⟩ := Option.isSome_iff_exists.mp hall
  exact seen_mem raw ch key n hn

theorem reading_freq (raw : List RawEntry) (p : Char × List Reading)
    (hp : p ∈ buildCharTableV4 raw) (r : Reading) (hr : r ∈ p.2) :
    ∃ m : ℤ, IsGreatest {f | ∃ e ∈ raw, Uses e p.1 r.key ∧ e.freq = f} m ∧
      (r.freq : ℤ) = max 1 m := by
  classical
  have hgreatest := (accumulate_recorded raw).greatest _ _ _ ((mem_readings raw p hp r).mp hr)
  obtain ⟨e, he, huse, hkey, hn⟩ := (mem_sightings raw _ _ _).mp hgreatest.1
  have hmem : ∀ e' ∈ raw, Uses e' p.1 r.key →
      e' ∈ raw.filter (fun e => decide (Uses e p.1 r.key)) :=
    fun e' he' huse' => List.mem_filter.mpr ⟨he', decide_eq_true huse'⟩
  cases hmax : (raw.filter (fun e => decide (Uses e p.1 r.key))).argmax RawEntry.freq with
  | none =>
    rw [List.argmax_eq_none] at hmax
    exact absurd (hmem e he huse) (by rw [hmax]; exact List.not_mem_nil)
  | some top =>
    obtain ⟨htop, htopuse⟩ := List.mem_filter.mp (List.argmax_mem hmax)
    have hle : ∀ e' ∈ raw, Uses e' p.1 r.key → e'.freq ≤ top.freq :=
      fun e' he' huse' => List.le_of_mem_argmax (hmem e' he' huse') hmax
    refine ⟨top.freq, ⟨⟨top, htop, of_decide_eq_true htopuse, rfl⟩, ?_⟩, ?_⟩
    · rintro f ⟨e', he', huse', rfl⟩
      exact hle e' he' huse'
    · have hup := hgreatest.2 ((mem_sightings raw _ _ _).mpr
        ⟨top, htop, of_decide_eq_true htopuse, hkey, rfl⟩)
      have hdown := hle e he huse
      omega

/-- The entries of a word that have one syllable for each character. -/
def entriesOf (raw : List RawEntry) (w : List Char) : List RawEntry :=
  raw.filter (fun e => decide (e.word = w ∧ e.sylls.length = w.length))

/-- A word of two or more CJK characters of the table. -/
def Spellable (table : CharTable) (w : List Char) : Prop :=
  2 ≤ w.length ∧ w.all isCjk = true ∧ ∀ c ∈ w, c ∈ table.map Prod.fst

def candidate (table : CharTable) (e : RawEntry) : Bool :=
  decide (2 ≤ e.word.length) && e.word.all isCjk &&
    e.word.all (fun c => (charToId table c).isSome) && decide (e.sylls.length = e.word.length)

theorem char_to_id_isSome (table : CharTable) (c : Char) :
    (charToId table c).isSome = true ↔ c ∈ table.map Prod.fst := by
  rw [charToId, List.findIdx?_isSome, List.any_eq_true, List.mem_map]
  exact exists_congr (fun p => and_congr_right (fun _ => decide_eq_true_iff))

theorem candidate_iff (table : CharTable) (e : RawEntry) :
    candidate table e = true ↔ Spellable table e.word ∧ e.sylls.length = e.word.length := by
  rw [candidate, Bool.and_eq_true, Bool.and_eq_true, Bool.and_eq_true, decide_eq_true_iff,
    decide_eq_true_iff, List.all_eq_true (p := fun c => (charToId table c).isSome), Spellable,
    and_assoc, and_assoc, and_assoc, and_assoc]
  simp only [char_to_id_isSome]

theorem record_best_keep (table : CharTable) : recordBest table = fun best e =>
    if candidate table e then Lib.Dict.keep Prod.fst best (e.word, e.freq, e.sylls) else best := by
  funext best e
  rw [recordBest]
  by_cases hlen : e.word.length < 2
  · rw [if_pos hlen, if_neg (by simp [candidate, hlen])]
  rw [if_neg hlen]
  by_cases hcjk : e.word.all isCjk = true
  · rw [if_neg (not_not.mpr hcjk)]
    by_cases hknown : e.word.all (fun c => (charToId table c).isSome) = true
    · rw [if_neg (not_not.mpr hknown)]
      by_cases hsyl : (parseReadingSyllables e.reading).length = e.word.length
      · have hcand : candidate table e = true := by
          rw [candidate, hcjk, hknown, decide_eq_true (Nat.not_lt.mp hlen), RawEntry.sylls,
            decide_eq_true hsyl]
          rfl
        rw [if_neg (not_not.mpr hsyl), if_pos hcand, Lib.Dict.keep]
        cases Lib.Dict.get? best e.word with
        | none => rfl
        | some prev => exact if_congr Iff.rfl rfl rfl
      · rw [if_pos hsyl, if_neg (by rw [candidate, RawEntry.sylls, decide_eq_false hsyl]; simp)]
    · rw [if_pos hknown, if_neg (by rw [candidate, Bool.eq_false_iff.mpr hknown]; simp)]
  · rw [if_pos hcjk, if_neg (by rw [candidate, Bool.eq_false_iff.mpr hcjk]; simp)]

theorem best_get (raw : List RawEntry) (table : CharTable) (w : List Char)
    (hw : Spellable table w) : Lib.Dict.get? (raw.foldl (recordBest table) []) w =
      ((entriesOf raw w).argmax RawEntry.freq).map (fun e => (e.freq, e.sylls)) := by
  have hfold : raw.foldl (recordBest table) [] = ((raw.filter (candidate table)).map
      (fun e => (e.word, e.freq, e.sylls))).foldl (Lib.Dict.keep Prod.fst) [] := by
    rw [List.foldl_map, List.foldl_filter, record_best_keep]
  have hfilter : (raw.filter (candidate table)).filter (fun e => decide (e.word = w)) =
      entriesOf raw w := by
    rw [entriesOf, List.filter_filter]
    apply List.filter_congr
    intro e _
    apply Bool.eq_iff_iff.mpr
    rw [Bool.and_eq_true, candidate_iff, decide_eq_true_iff, decide_eq_true_iff]
    constructor
    · rintro ⟨rfl, -, hlen⟩
      exact ⟨rfl, hlen⟩
    · rintro ⟨rfl, hlen⟩
      exact ⟨rfl, hw, hlen⟩
  rw [hfold, Lib.Dict.keep_argmax, List.filter_map, List.map_map]
  have hcomp : ((fun p : List Char × ℤ × List (List Char) => decide (p.1 = w)) ∘
      fun e : RawEntry => (e.word, e.freq, e.sylls)) = fun e => decide (e.word = w) := rfl
  rw [hcomp, hfilter]
  exact Lib.Dict.argmax_map (fun e : RawEntry => (e.freq, e.sylls)) Prod.fst (entriesOf raw w)

theorem mem_words (raw : List RawEntry) (we : WordEntry) :
    we ∈ buildWordTableV4 raw (buildCharTableV4 raw) ↔
      ∃ w e, Spellable (buildCharTableV4 raw) w ∧
        (entriesOf raw w).argmax RawEntry.freq = some e ∧
        we = wordEntry (buildCharTableV4 raw) (w, e.freq, e.sylls) := by
  have hok := best_ok raw (buildCharTableV4 raw)
  have hget := fun w v => Lib.Dict.get?_eq_some_iff
    (raw.foldl (recordBest (buildCharTableV4 raw)) []) hok.nodup w v
  constructor
  · intro hmem
    obtain ⟨⟨w, v⟩, hp, rfl⟩ := List.mem_map.mp hmem
    have hentry := hok.entry _ hp
    have hknown : ∀ c ∈ w, c ∈ (buildCharTableV4 raw).map Prod.fst :=
      fun c hc => (char_to_id_isSome _ c).mp (hentry.known c hc)
    have hcjk : w.all isCjk = true := by
      apply List.all_eq_true.mpr
      intro c hc
      obtain ⟨q, hq, rfl⟩ := List.mem_map.mp (hknown c hc)
      exact (char_table_ok raw q hq).cjk
    have hw : Spellable (buildCharTableV4 raw) w := ⟨hentry.length, hcjk, hknown⟩
    have hv := (hget w v).mpr hp
    rw [best_get raw _ w hw, Option.map_eq_some_iff] at hv
    obtain ⟨e, he, rfl⟩ := hv
    exact ⟨w, e, hw, he, rfl⟩
  · rintro ⟨w, e, hw, he, rfl⟩
    refine List.mem_map.mpr ⟨(w, e.freq, e.sylls), (hget w _).mp ?_, rfl⟩
    rw [best_get raw _ w hw, he, Option.map_some]

theorem mem_entriesOf (raw : List RawEntry) (w : List Char) (e : RawEntry) :
    e ∈ entriesOf raw w ↔ e ∈ raw ∧ e.word = w ∧ e.sylls.length = w.length := by
  rw [entriesOf, List.mem_filter, decide_eq_true_iff]

theorem word_iff (raw : List RawEntry) (w : List Char) :
    w ∈ (buildWordTableV4 raw (buildCharTableV4 raw)).map WordEntry.word ↔
      Spellable (buildCharTableV4 raw) w ∧ entriesOf raw w ≠ [] := by
  rw [List.mem_map]
  constructor
  · rintro ⟨we, hmem, rfl⟩
    obtain ⟨w, e, hw, he, rfl⟩ := (mem_words raw we).mp hmem
    exact ⟨hw, List.ne_nil_of_mem (List.argmax_mem he)⟩
  · rintro ⟨hw, hne⟩
    cases he : (entriesOf raw w).argmax RawEntry.freq with
    | none => exact absurd (List.argmax_eq_none.mp he) hne
    | some e => exact ⟨_, (mem_words raw _).mpr ⟨w, e, hw, he, rfl⟩, rfl⟩

/-- Each index of the word is that of a reading with the keys, the positions and the tone of
the syllable. -/
structure Selects (table : CharTable) (we : WordEntry) (sylls : List (List Char)) : Prop where
  idxs : we.readingIdxs.length = sylls.length
  ids : we.charIds.length = sylls.length
  reading : ∀ p ∈ (we.charIds.zip we.readingIdxs).zip sylls,
    ∃ r, (charReadings table p.1.1)[p.1.2]? = some r ∧ r.key = readingKey p.2

theorem reading_index_exact (readings : List Reading) (syl : List Char)
    (h : ∃ r ∈ readings, r.key = readingKey syl) :
    ∃ r, readings[readingIndex readings syl]? = some r ∧ r.key = readingKey syl := by
  have hkey : ∀ r : Reading, decide (r.keyseq = (readingKey syl).1 ∧ r.pos = (readingKey syl).2.1 ∧
      r.tone = (readingKey syl).2.2) = true ↔ r.key = readingKey syl := by
    intro r
    rw [decide_eq_true_iff, Reading.key, Prod.ext_iff, Prod.ext_iff]
  obtain ⟨r, hr, hrk⟩ := h
  rw [readingIndex]
  split
  · rename_i i hi
    obtain ⟨hlt, hp, -⟩ := List.findIdx?_eq_some_iff_getElem.mp hi
    exact ⟨readings[i], List.getElem?_eq_getElem hlt, (hkey _).mp hp⟩
  · rename_i hnone
    exact Bool.noConfusion ((List.findIdx?_eq_none_iff.mp hnone r hr).symm.trans ((hkey r).mpr hrk))

theorem word_entry_zip (table : CharTable) (w : List Char) (freq : ℤ) (sylls : List (List Char))
    (hlen : sylls.length = w.length) :
    ((wordEntry table (w, freq, sylls)).charIds.zip
      (wordEntry table (w, freq, sylls)).readingIdxs).zip sylls =
    (w.zip sylls).map (fun q => (((charToId table q.1).getD 0,
      readingIndex (charReadings table ((charToId table q.1).getD 0)) q.2), q.2)) := by
  apply List.ext_getElem
  · simp [wordEntry, hlen]
  · intro i h₁ h₂
    simp [wordEntry]

theorem char_readings_of (table : CharTable) (hd : (table.map Prod.fst).Nodup)
    (p : Char × List Reading) (hp : p ∈ table) :
    charReadings table ((charToId table p.1).getD 0) = p.2 := by
  have hsome := (char_to_id_isSome table p.1).mpr (List.mem_map.mpr ⟨p, hp, rfl⟩)
  obtain ⟨cid, hcid⟩ := Option.isSome_iff_exists.mp hsome
  obtain ⟨hlt, hch⟩ := char_to_id table p.1 cid hcid
  have hsame : table[cid] = p := List.inj_on_of_nodup_map hd (List.getElem_mem hlt) hp hch
  rw [hcid, Option.getD_some, charReadings, List.getElem?_eq_getElem hlt, hsame]

structure CharsRight (raw : List RawEntry) (table : CharTable) : Prop where
  once : (table.map Prod.fst).Nodup
  distinct : ∀ p ∈ table, (p.2.map Reading.key).Nodup
  sorted : ∀ p ∈ table, p.2.Pairwise (fun a b => b.freq ≤ a.freq)
  freq : ∀ p ∈ table, ∀ r ∈ p.2, ∃ m : ℤ,
    IsGreatest {f | ∃ e ∈ raw, Uses e p.1 r.key ∧ e.freq = f} m ∧ (r.freq : ℤ) = max 1 m
  all : ∀ e ∈ raw, ∀ ch key, Uses e ch key → key.1 ≠ [] →
    ∃ p ∈ table, p.1 = ch ∧ ∃ r ∈ p.2, r.key = key

structure WordsRight (raw : List RawEntry) (table : CharTable) (words : List WordEntry) : Prop where
  once : (words.map WordEntry.word).Nodup
  all : ∀ w, w ∈ words.map WordEntry.word ↔ Spellable table w ∧ entriesOf raw w ≠ []
  spells : ∀ we ∈ words, we.charIds.map (fun cid => (table[cid]?).map Prod.fst) = we.word.map some
  best : ∀ we ∈ words, ∃ e, (entriesOf raw we.word).argmax RawEntry.freq = some e ∧
    we.freq = e.freq ∧ Selects table we e.sylls

def Known (raw : List RawEntry) (c : Char) : Prop :=
  ∃ e ∈ raw, ∃ key, Uses e c key ∧ key.1 ≠ []

/-- The best entry of every word has keys for each of its syllables. -/
def Keyed (raw : List RawEntry) : Prop :=
  ∀ w e, 2 ≤ w.length → w.all isCjk = true → (∀ c ∈ w, Known raw c) →
    (entriesOf raw w).argmax RawEntry.freq = some e → ∀ syl ∈ e.sylls, phonemesToKeyseq syl ≠ []

theorem chars_right (raw : List RawEntry) : CharsRight raw (buildCharTableV4 raw) where
  once := char_table_nodup raw
  distinct := readings_nodup raw
  sorted := fun p hp => (char_table_ok raw p hp).sorted
  freq := reading_freq raw
  all := used_mem raw

theorem known_iff (raw : List RawEntry) (c : Char) :
    c ∈ (buildCharTableV4 raw).map Prod.fst ↔ Known raw c := by
  rw [List.mem_map]
  constructor
  · rintro ⟨p, hp, rfl⟩
    obtain ⟨r, hr⟩ := List.exists_mem_of_ne_nil _ (char_table_ok raw p hp).ne_nil
    obtain ⟨m, ⟨⟨e, he, huse, -⟩, -⟩, -⟩ := reading_freq raw p hp r hr
    exact ⟨e, he, r.key, huse, ((char_table_ok raw p hp).reading r hr).ne_nil⟩
  · rintro ⟨e, he, key, huse, hkey⟩
    obtain ⟨p, hp, hch, -⟩ := used_mem raw e he c key huse hkey
    exact ⟨p, hp, hch⟩

theorem reading_key_keys (syl : List Char) : (readingKey syl).1 = phonemesToKeyseq syl :=
  keyseq_with_pos syl

theorem word_selects (raw : List RawEntry) (w : List Char) (e : RawEntry)
    (hw : Spellable (buildCharTableV4 raw) w)
    (he : (entriesOf raw w).argmax RawEntry.freq = some e)
    (hkeys : ∀ syl ∈ e.sylls, phonemesToKeyseq syl ≠ []) :
    Selects (buildCharTableV4 raw) (wordEntry (buildCharTableV4 raw) (w, e.freq, e.sylls))
      e.sylls := by
  obtain ⟨hmem, rfl, hlen⟩ := (mem_entriesOf raw w e).mp (List.argmax_mem he)
  refine ⟨?_, ?_, ?_⟩
  · simp [wordEntry, hlen]
  · simp [wordEntry, hlen]
  · intro p hp
    rw [word_entry_zip _ _ _ _ hlen] at hp
    obtain ⟨⟨c, syl⟩, hq, rfl⟩ := List.mem_map.mp hp
    have hsyl : syl ∈ e.sylls := (List.of_mem_zip hq).2
    have huse : Uses e c (readingKey syl) := ⟨hw.2.1, hlen, syl, hq, rfl⟩
    obtain ⟨t, ht, rfl, hr⟩ := used_mem raw e hmem c (readingKey syl) huse
      (by rw [reading_key_keys]; exact hkeys syl hsyl)
    show ∃ r, (charReadings _ ((charToId _ t.1).getD 0))[readingIndex (charReadings _ _) syl]? =
      some r ∧ r.key = readingKey syl
    rw [char_readings_of _ (char_table_nodup raw) t ht]
    exact reading_index_exact t.2 syl hr

theorem char_readings_mem (table : CharTable) (cid i : ℕ) (r : Reading)
    (hr : (charReadings table cid)[i]? = some r) : ∃ p ∈ table, r ∈ p.2 := by
  rw [charReadings] at hr
  cases ht : table[cid]? with
  | none =>
    rw [ht] at hr
    exact absurd hr (by simp)
  | some p =>
    rw [ht] at hr
    exact ⟨p, List.mem_of_getElem? ht, List.mem_of_getElem? hr⟩

theorem selects_keyed (raw : List RawEntry) (we : WordEntry) (sylls : List (List Char))
    (h : Selects (buildCharTableV4 raw) we sylls) (syl : List Char) (hsyl : syl ∈ sylls) :
    phonemesToKeyseq syl ≠ [] := by
  obtain ⟨i, hi, rfl⟩ := List.getElem_of_mem hsyl
  have hlt : i < ((we.charIds.zip we.readingIdxs).zip sylls).length := by
    rw [List.length_zip, List.length_zip, h.ids, h.idxs]
    omega
  obtain ⟨r, hr, hkey⟩ := h.reading _ (List.getElem_mem hlt)
  rw [List.getElem_zip, List.getElem_zip] at hr hkey
  rw [← reading_key_keys, ← hkey]
  obtain ⟨p, hp, hmem⟩ := char_readings_mem _ _ _ r hr
  exact ((char_table_ok raw p hp).reading r hmem).ne_nil

/-- The tables are right exactly when the best entry of every word has keys for each of its
syllables. -/
theorem tables_right_iff (raw : List RawEntry) :
    CharsRight raw (buildCharTableV4 raw) ∧
      WordsRight raw (buildCharTableV4 raw) (buildWordTableV4 raw (buildCharTableV4 raw)) ↔
    Keyed raw := by
  have hspell : ∀ w, Spellable (buildCharTableV4 raw) w ↔
      2 ≤ w.length ∧ w.all isCjk = true ∧ ∀ c ∈ w, Known raw c :=
    fun w => and_congr_right (fun _ => and_congr_right (fun _ =>
      forall_congr' (fun c => forall_congr' (fun _ => known_iff raw c))))
  constructor
  · rintro ⟨-, hwords⟩ w e hlen hcjk hknown he
    have hw := (hspell w).mpr ⟨hlen, hcjk, hknown⟩
    obtain ⟨e', he', -, hsel⟩ := hwords.best _ ((mem_words raw _).mpr ⟨w, e, hw, he, rfl⟩)
    obtain rfl := Option.some.inj (he.symm.trans he')
    exact selects_keyed raw _ e.sylls hsel
  · intro hkeyed
    refine ⟨chars_right raw, word_table_nodup raw _, word_iff raw, ?_, ?_⟩
    · exact fun we hwe => (word_table_ok raw we hwe).spells
    · intro we hwe
      obtain ⟨w, e, hw, he, rfl⟩ := (mem_words raw we).mp hwe
      obtain ⟨hlen, hcjk, hknown⟩ := (hspell w).mp hw
      exact ⟨e, he, rfl, word_selects raw w e hw he (hkeyed w e hlen hcjk hknown he)⟩

/-- A word whose more frequent entry has a syllable without keys. -/
def unkeyed : List RawEntry :=
  [⟨['你', '好'], 5, ['ㄋ', 'ㄧ', 'ˇ', ' ', 'ㄏ', 'ㄠ', 'ˇ']⟩,
    ⟨['你', '好'], 9, ['ㄪ', ' ', 'ㄏ', 'ㄠ', 'ˇ']⟩]

/-- The word gets the default reading for it, which is another one. -/
theorem unkeyed_tables_wrong :
    ¬ (CharsRight unkeyed (buildCharTableV4 unkeyed) ∧
      WordsRight unkeyed (buildCharTableV4 unkeyed)
        (buildWordTableV4 unkeyed (buildCharTableV4 unkeyed))) := by
  rintro ⟨-, hwords⟩
  have hword : ['你', '好'] ∈
      (buildWordTableV4 unkeyed (buildCharTableV4 unkeyed)).map WordEntry.word := by
    decide +kernel
  obtain ⟨we, hwe, hw⟩ := List.mem_map.mp hword
  obtain ⟨e, he, -, hsel⟩ := hwords.best we hwe
  have hbest : (entriesOf unkeyed ['你', '好']).argmax RawEntry.freq =
      some ⟨['你', '好'], 9, ['ㄪ', ' ', 'ㄏ', 'ㄠ', 'ˇ']⟩ := by
    rfl
  rw [hw, hbest] at he
  obtain rfl := Option.some.inj he
  have hsyl : ['ㄪ'] ∈ RawEntry.sylls ⟨['你', '好'], 9, ['ㄪ', ' ', 'ㄏ', 'ㄠ', 'ˇ']⟩ := by
    decide +kernel
  exact selects_keyed unkeyed we _ hsel ['ㄪ'] hsyl (by decide +kernel)

end MokyaLora.GenDict
