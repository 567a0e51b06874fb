import MokyaLora.DictTables

/-!
# What every dictionary satisfies

Whatever the raw entries are, the characters are distinct, each has a reading,
and the words are distinct sequences of two or more of them.
-/

set_option autoImplicit false

namespace MokyaLora.GenDict
open Lib.Fields

def rawSyllables (raw : List RawEntry) : List (List Char) :=
  raw.flatMap (fun e => parseReadingSyllables e.reading)

/-- The keys of one of the syllables that has some, with their positions and its tone. -/
def KeyOk (sylls : List (List Char)) (key : ReadingKey) : Prop :=
  ∃ syl ∈ sylls, key = readingKey syl ∧ key.1 ≠ []

def CharDictOk (sylls : List (List Char)) (chDict : List (ReadingKey × ℕ)) : Prop :=
  chDict ≠ [] ∧ ∀ p ∈ chDict, KeyOk sylls p.1

structure AccumOk (sylls : List (List Char)) (accum : Accum) : Prop where
  nodup : (Lib.Dict.keys accum).Nodup
  char : ∀ p ∈ accum, isCjk p.1 = true ∧ CharDictOk sylls p.2

section Accumulate

variable (sylls : List (List Char))

theorem char_dict_get (accum : Accum) (h : AccumOk sylls accum) (ch : Char) :
    ∀ p ∈ (Lib.Dict.get? accum ch).getD [], KeyOk sylls p.1 := by
  cases hg : Lib.Dict.get? accum ch with
  | none => simp
  | some chDict =>
    exact ((h.char _ (Lib.Dict.mem_of_get? accum ch chDict hg)).2).2

theorem record_reading_ok (effFreq : ℕ) (hf : 0 < effFreq) (accum : Accum) (h : AccumOk sylls accum)
    (p : Char × List Char) (hp : isCjk p.1 = true) (hsyl : p.2 ∈ sylls) :
    AccumOk sylls (recordReading effFreq accum p) := by
  obtain ⟨ch, syl⟩ := p
  have hold := char_dict_get sylls accum h ch
  have hset : ∀ chDict, CharDictOk sylls chDict →
      AccumOk sylls (Lib.Dict.set accum ch chDict) := by
    intro chDict hd
    refine ⟨Lib.Dict.nodup_set _ _ _ h.nodup, fun q hq => ?_⟩
    rcases Lib.Dict.mem_set _ _ _ q hq with rfl | hq
    · exact ⟨hp, hd⟩
    · exact h.char q hq
  unfold recordReading
  dsimp only
  split
  · exact h
  · rename_i hk
    split
    · apply hset
      refine ⟨Lib.Dict.set_ne_nil _ _ _, fun q hq => ?_⟩
      rcases Lib.Dict.mem_set _ _ _ q hq with rfl | hq
      · exact ⟨syl, hsyl, rfl, hk⟩
      · exact hold q hq
    · rename_i hle
      apply hset
      refine ⟨?_, hold⟩
      intro hnil
      rw [hnil] at hle
      exact hle hf

theorem record_entry_ok (accum : Accum) (h : AccumOk sylls accum) (e : RawEntry)
    (he : ∀ syl ∈ parseReadingSyllables e.reading, syl ∈ sylls) :
    AccumOk sylls (recordEntry accum e) := by
  unfold recordEntry
  dsimp only
  split
  · exact h
  · rename_i hcjk
    split
    · exact h
    · apply List.foldlRecOn _ _ h
      intro accum h p hp
      have hall := List.all_eq_true.mp (not_not.mp hcjk)
      have hmem := List.of_mem_zip (a := p.1) (b := p.2) hp
      exact record_reading_ok sylls _ (by omega) accum h p (hall p.1 hmem.1) (he p.2 hmem.2)

end Accumulate

theorem accumulate_ok (raw : List RawEntry) : AccumOk (rawSyllables raw) (accumulate raw) :=
  List.foldlRecOn raw recordEntry ⟨List.nodup_nil, by simp⟩ (fun _ h e he =>
    record_entry_ok _ _ h e (fun _ hsyl => List.mem_flatMap.mpr ⟨e, he, hsyl⟩))

/-- A stored reading: input keys with their positions, and a tone. -/
structure ReadingOk (r : Reading) : Prop where
  ne_nil : r.keyseq ≠ []
  key : ∀ b ∈ r.keyseq, 0x21 ≤ b ∧ b ≤ 0x34
  pos : r.pos.length = r.keyseq.length ∧ ∀ p ∈ r.pos, p < 3
  tone : 1 ≤ r.tone ∧ r.tone ≤ 5

structure CharOk (p : Char × List Reading) : Prop where
  cjk : isCjk p.1 = true
  ne_nil : p.2 ≠ []
  reading : ∀ r ∈ p.2, ReadingOk r
  sorted : p.2.Pairwise (fun a b => b.freq ≤ a.freq)

theorem sorted_reading (sylls : List (List Char)) (chDict : List (ReadingKey × ℕ))
    (h : CharDictOk sylls chDict) (r : Reading) (hr : r ∈ sortedReadings chDict) :
    ∃ syl ∈ sylls, (r.keyseq, r.pos, r.tone) = readingKey syl ∧ r.keyseq ≠ [] := by
  obtain ⟨p, hp, rfl⟩ := List.mem_map.mp ((List.mem_insertionSort _).mp hr)
  exact h.2 p hp

theorem sorted_readings_ok (sylls : List (List Char)) (chDict : List (ReadingKey × ℕ))
    (h : CharDictOk sylls chDict) :
    sortedReadings chDict ≠ [] ∧ (∀ r ∈ sortedReadings chDict, ReadingOk r) ∧
      (sortedReadings chDict).Pairwise (fun a b => b.freq ≤ a.freq) := by
  refine ⟨?_, ?_, ?_⟩
  · unfold sortedReadings
    rw [← List.length_pos_iff, List.length_insertionSort, List.length_map, List.length_pos_iff]
    exact h.1
  · intro r hr
    obtain ⟨syl, -, hkey, hne⟩ := sorted_reading sylls chDict h r hr
    obtain ⟨hb, hpos⟩ := keyseq_range syl
    have htone := syllable_tone_range syl
    have hlen := keyseq_pos_length syl
    simp only [readingKey, Prod.mk.injEq] at hkey
    rw [← hkey.1] at hb hlen
    rw [← hkey.2.1] at hpos hlen
    rw [← hkey.2.2] at htone
    exact ⟨hne, hb, ⟨hlen, hpos⟩, htone⟩
  · have : Std.Total (fun a b : Reading => b.freq ≤ a.freq) := ⟨fun a b => le_total b.freq a.freq⟩
    have : IsTrans Reading (fun a b => b.freq ≤ a.freq) := ⟨fun _ _ _ h h' => le_trans h' h⟩
    exact List.pairwise_insertionSort _ _

theorem mem_char_table (raw : List RawEntry) (p : Char × List Reading)
    (hp : p ∈ buildCharTableV4 raw) : isCjk p.1 = true ∧
      ∃ chDict, CharDictOk (rawSyllables raw) chDict ∧ p.2 = sortedReadings chDict := by
  obtain ⟨ch, hch, rfl⟩ := List.mem_map.mp hp
  have hk := (Lib.Dict.get?_isSome _ _).mpr ((List.mem_insertionSort _).mp hch)
  obtain ⟨chDict, hd⟩ := Option.isSome_iff_exists.mp hk
  obtain ⟨hcjk, hok⟩ := (accumulate_ok raw).char _ (Lib.Dict.mem_of_get? _ _ _ hd)
  exact ⟨hcjk, chDict, hok, by rw [hd, Option.getD_some]⟩

theorem char_table_ok (raw : List RawEntry) : ∀ p ∈ buildCharTableV4 raw, CharOk p := by
  intro p hp
  obtain ⟨hcjk, chDict, hok, hreadings⟩ := mem_char_table raw p hp
  obtain ⟨hne, hr, hs⟩ := sorted_readings_ok _ chDict hok
  rw [← hreadings] at hne hr hs
  exact ⟨hcjk, hne, hr, hs⟩

theorem reading_syllable (raw : List RawEntry) (p : Char × List Reading)
    (hp : p ∈ buildCharTableV4 raw) (r : Reading) (hr : r ∈ p.2) :
    ∃ syl ∈ rawSyllables raw, r.keyseq = phonemesToKeyseq syl := by
  obtain ⟨-, chDict, hok, hreadings⟩ := mem_char_table raw p hp
  obtain ⟨syl, hsyl, hkey, -⟩ := sorted_reading _ chDict hok r (hreadings ▸ hr)
  simp only [readingKey, Prod.mk.injEq] at hkey
  exact ⟨syl, hsyl, by rw [hkey.1, keyseq_with_pos]⟩

theorem char_table_nodup (raw : List RawEntry) : ((buildCharTableV4 raw).map Prod.fst).Nodup := by
  have hn := (accumulate_ok raw).nodup
  unfold buildCharTableV4 charTableOf
  rw [List.map_map]
  have hid : ∀ l : List Char, l.map (Prod.fst ∘ fun ch =>
      (ch, sortedReadings ((Lib.Dict.get? (accumulate raw) ch).getD []))) = l := by
    intro l
    exact List.map_id l
  rw [hid]
  exact (List.perm_insertionSort _ _).nodup_iff.mpr hn

/-- A best entry: a word of two or more characters of the table, with a syllable
for each. -/
structure BestEntryOk (table : CharTable) (p : List Char × ℤ × List (List Char)) : Prop where
  length : 2 ≤ p.1.length
  known : ∀ c ∈ p.1, (charToId table c).isSome = true
  sylls : p.2.2.length = p.1.length

structure BestOk (table : CharTable) (best : Best) : Prop where
  nodup : (Lib.Dict.keys best).Nodup
  entry : ∀ p ∈ best, BestEntryOk table p

theorem record_best_ok (table : CharTable) (best : Best) (h : BestOk table best) (e : RawEntry) :
    BestOk table (recordBest table best e) := by
  unfold recordBest
  dsimp only
  split
  · exact h
  rename_i hlen
  split
  · exact h
  split
  · exact h
  rename_i hknown
  split
  · exact h
  rename_i hsylls
  have hset : BestOk table
      (Lib.Dict.set best e.word (e.freq, parseReadingSyllables e.reading)) := by
    refine ⟨Lib.Dict.nodup_set _ _ _ h.nodup, fun q hq => ?_⟩
    rcases Lib.Dict.mem_set _ _ _ q hq with rfl | hq
    · exact ⟨not_lt.mp hlen, List.all_eq_true.mp (not_not.mp hknown), not_not.mp hsylls⟩
    · exact h.entry q hq
  split
  · exact hset
  · split
    · exact hset
    · exact h

theorem best_ok (raw : List RawEntry) (table : CharTable) :
    BestOk table (raw.foldl (recordBest table) []) :=
  List.foldlRecOn raw (recordBest table) ⟨List.nodup_nil, by simp⟩
    (fun _ h e _ => record_best_ok table _ h e)

theorem char_to_id (table : CharTable) (ch : Char) (cid : ℕ) (h : charToId table ch = some cid) :
    ∃ hc : cid < table.length, table[cid].1 = ch := by
  obtain ⟨hlt, hp, -⟩ := List.findIdx?_eq_some_iff_getElem.mp h
  exact ⟨hlt, of_decide_eq_true hp⟩

theorem reading_index_lt (readings : List Reading) (syl : List Char) (h : readings ≠ []) :
    readingIndex readings syl < readings.length := by
  unfold readingIndex
  dsimp only
  split
  · rename_i i hi
    exact (List.findIdx?_eq_some_iff_getElem.mp hi).1
  · cases hf : readings.findIdx? (fun r =>
        decide (r.keyseq = (readingKey syl).1 ∧ r.tone = (readingKey syl).2.2)) with
    | none => exact List.length_pos_iff.mpr h
    | some i => exact (List.findIdx?_eq_some_iff_getElem.mp hf).1

/-- A word: two or more character ids that spell it, each with one of the
character's readings. -/
structure WordOk (table : CharTable) (w : WordEntry) : Prop where
  length : 2 ≤ w.charIds.length
  idxs : w.readingIdxs.length = w.charIds.length
  ids : ∀ cid ∈ w.charIds, cid < table.length
  spells : w.charIds.map (fun cid => (table[cid]?).map Prod.fst) = w.word.map some
  reading : ∀ q ∈ w.charIds.zip w.readingIdxs, q.2 < (charReadings table q.1).length

theorem WordOk.word_length {table : CharTable} {w : WordEntry} (h : WordOk table w) :
    w.word.length = w.charIds.length := by
  have hspell := congrArg List.length h.spells
  rw [List.length_map, List.length_map] at hspell
  exact hspell.symm

theorem char_readings_ne_nil (table : CharTable) (ht : ∀ p ∈ table, CharOk p) (cid : ℕ)
    (h : cid < table.length) : charReadings table cid ≠ [] := by
  rw [charReadings, List.getElem?_eq_getElem h]
  exact (ht _ (List.getElem_mem h)).ne_nil

theorem word_entry_ok (table : CharTable) (ht : ∀ p ∈ table, CharOk p)
    (p : List Char × ℤ × List (List Char)) (hp : BestEntryOk table p) :
    WordOk table (wordEntry table p) := by
  have hid : ∀ c ∈ p.1, ∃ cid, ∃ hc : cid < table.length, charToId table c = some cid ∧
      table[cid].1 = c := by
    intro c hc
    obtain ⟨cid, hcid⟩ := Option.isSome_iff_exists.mp (hp.known c hc)
    obtain ⟨hlt, hch⟩ := char_to_id table c cid hcid
    exact ⟨cid, hlt, hcid, hch⟩
  have hsyl := hp.sylls
  constructor
  · simpa [wordEntry] using hp.length
  · simp only [wordEntry, List.length_map, List.length_zip]
    omega
  · intro cid hmem
    obtain ⟨c, hc, rfl⟩ := List.mem_map.mp hmem
    obtain ⟨cid, hlt, hcid, -⟩ := hid c hc
    rw [hcid]
    exact hlt
  · simp only [wordEntry, List.map_map]
    apply List.map_congr_left
    intro c hc
    obtain ⟨cid, hlt, hcid, hch⟩ := hid c hc
    simp only [Function.comp_apply, hcid, Option.getD_some, List.getElem?_eq_getElem hlt,
      Option.map_some, hch]
  · intro q hq
    simp only [wordEntry] at hq
    obtain ⟨i, hi, hget⟩ := List.getElem_of_mem hq
    have hi' : i < p.1.length ∧ i < p.2.2.length := by
      simp only [List.length_zip, List.length_map] at hi
      omega
    obtain ⟨cid, hlt, hcid, -⟩ := hid p.1[i] (List.getElem_mem hi'.1)
    simp only [List.getElem_zip, List.getElem_map] at hget
    rw [← hget]
    dsimp only
    rw [hcid, Option.getD_some]
    exact reading_index_lt _ _ (char_readings_ne_nil table ht cid hlt)

theorem word_table_ok (raw : List RawEntry) :
    ∀ w ∈ buildWordTableV4 raw (buildCharTableV4 raw), WordOk (buildCharTableV4 raw) w := by
  intro w hw
  obtain ⟨p, hp, rfl⟩ := List.mem_map.mp hw
  exact word_entry_ok _ (char_table_ok raw) p ((best_ok raw _).entry p hp)

theorem word_table_nodup (raw : List RawEntry) (table : CharTable) :
    ((buildWordTableV4 raw table).map WordEntry.word).Nodup := by
  unfold buildWordTableV4
  rw [List.map_map]
  exact (best_ok raw table).nodup

theorem bucket_of (w : WordEntry) (h : 1 ≤ w.charIds.length) :
    1 ≤ bucketOf w ∧ bucketOf w ≤ maxGroup := by
  unfold bucketOf
  split <;> simp only [maxGroup] at * <;> omega

theorem mem_group_words (words : List WordEntry) (b : ℕ) (w : WordEntry) :
    w ∈ groupWords words b ↔ w ∈ words ∧ bucketOf w = b := by
  simp [groupWords, List.mem_insertionSort]

theorem mem_grouped (words : List WordEntry) (h : ∀ w ∈ words, 1 ≤ w.charIds.length)
    (w : WordEntry) : w ∈ (groupedWords words).flatten ↔ w ∈ words := by
  constructor
  · intro hw
    obtain ⟨l, hl, hmem⟩ := List.mem_flatten.mp hw
    obtain ⟨g, -, rfl⟩ := List.mem_map.mp hl
    exact ((mem_group_words words _ w).mp hmem).1
  · intro hw
    obtain ⟨hlo, hup⟩ := bucket_of w (h w hw)
    refine List.mem_flatten.mpr ⟨groupWords words (bucketOf w), ?_, ?_⟩
    · exact List.mem_map.mpr ⟨bucketOf w-1, List.mem_range.mpr (by omega), by
        rw [show bucketOf w-1+1 = bucketOf w by omega]⟩
    · exact (mem_group_words words _ w).mpr ⟨hw, rfl⟩

theorem dict_words_ok (raw : List RawEntry) :
    ∀ w ∈ dictWords raw, WordOk (buildCharTableV4 raw) w := by
  intro w hw
  obtain ⟨l, hl, hmem⟩ := List.mem_flatten.mp hw
  obtain ⟨g, -, rfl⟩ := List.mem_map.mp hl
  exact word_table_ok raw w ((mem_group_words _ _ w).mp hmem).1

theorem group_key (words : List WordEntry) (g : ℕ) (hg : g < (groupedWords words).length) :
    ∀ w ∈ (groupedWords words)[g], bucketOf w-1 = g := by
  intro w hw
  simp only [groupedWords, List.getElem_map, List.getElem_range] at hw
  have := ((mem_group_words words _ w).mp hw).2
  omega

theorem dict_words_perm (raw : List RawEntry) :
    (dictWords raw).Perm (buildWordTableV4 raw (buildCharTableV4 raw)) := by
  have hwords := (word_table_nodup raw (buildCharTableV4 raw)).of_map
  have hflat : (dictWords raw).Nodup := by
    unfold dictWords dictGroups
    rw [List.nodup_flatten]
    constructor
    · intro l hl
      obtain ⟨g, -, rfl⟩ := List.mem_map.mp hl
      exact (List.perm_insertionSort _ _).nodup_iff.mpr (hwords.filter _)
    · unfold groupedWords
      rw [List.pairwise_map]
      apply List.Pairwise.imp _ (List.nodup_range (n := maxGroup))
      intro a b hab
      rw [List.disjoint_left]
      intro w hwa hwb
      have ha := ((mem_group_words _ _ w).mp hwa).2
      have hb := ((mem_group_words _ _ w).mp hwb).2
      omega
  rw [List.perm_ext_iff_of_nodup hflat hwords]
  apply mem_grouped
  intro w hw
  have := (word_table_ok raw w hw).length
  omega

end MokyaLora.GenDict
