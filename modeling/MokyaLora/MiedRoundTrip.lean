import MokyaLora.DictRoundTrip
import MokyaLora.Lib.Leaderboard
import MokyaLora.MiedFormat
import MokyaLora.TrieBounds

/-!
# Reading a two-buffer dictionary gives the words it was built from
-/

set_option autoImplicit false

namespace MokyaLora.GenDict
open Lib.Fields Lib.Buckets

def MiedWord.stored (w : MiedWord) : ℕ := (min w.freq 0xFFFF).toNat

def miedWordBytes (w : MiedWord) : Bytes :=
  le16 w.stored++(UInt8.ofNat w.tone::UInt8.ofNat (Ime.text w.word).length::Ime.text w.word)

structure MiedWordFits (w : MiedWord) : Prop where
  freq : 0 ≤ w.freq
  tone : w.tone < 256
  length : (Ime.text w.word).length < 256

theorem MiedWord.stored_lt (w : MiedWord) : w.stored < 65536 := by
  rw [MiedWord.stored]
  omega

theorem mied_word_record (w : MiedWord) (b : Bytes) (h : miedWordRecord w = some b) :
    b = miedWordBytes w ∧ MiedWordFits w := by
  simp only [miedWordRecord, Option.bind_eq_bind, Option.bind_eq_some_iff, Option.pure_def,
    Option.some.injEq] at h
  obtain ⟨freq, hf, tone, ht, len, hl, rfl⟩ := h
  obtain ⟨rfl, hfreq, -⟩ := pack_h _ _ hf
  obtain ⟨rfl, htone⟩ := pack_b _ _ ht
  obtain ⟨rfl, hlen⟩ := pack_b _ _ hl
  exact ⟨by simp [miedWordBytes, MiedWord.stored], by omega, htone, hlen⟩

def valueBytes (wordList : List MiedWord) : Bytes :=
  le16 (validWords wordList).length++(validWords wordList).flatMap miedWordBytes

structure ValueFits (wordList : List MiedWord) : Prop where
  count : (validWords wordList).length < 65536
  words : ∀ w ∈ validWords wordList, MiedWordFits w

theorem value_record (wordList : List MiedWord) (b : Bytes)
    (h : buildValueRecord wordList = some b) : b = valueBytes wordList ∧ ValueFits wordList := by
  simp only [buildValueRecord, Option.bind_eq_bind, Option.bind_eq_some_iff, Option.pure_def,
    Option.some.injEq] at h
  obtain ⟨count, hc, records, hr, rfl⟩ := h
  obtain ⟨rfl, -, hcount⟩ := pack_h _ _ hc
  obtain ⟨rfl, hwords⟩ := map_m_some _ miedWordBytes MiedWordFits mied_word_record _ _ hr
  exact ⟨by rw [valueBytes, List.flatMap_def, Int.toNat_natCast], by omega, hwords⟩

def keyBytes (ks : Bytes) : Bytes := UInt8.ofNat ks.length::ks

theorem key_record (ks b : Bytes) (h : keyRecord ks = some b) :
    b = keyBytes ks ∧ ks.length < 256 := by
  simp only [keyRecord, Option.bind_eq_bind, Option.bind_eq_some_iff, Option.pure_def,
    Option.some.injEq] at h
  obtain ⟨len, hl, rfl⟩ := h
  obtain ⟨rfl, hlen⟩ := pack_b _ _ hl
  exact ⟨rfl, hlen⟩

def wordsOf (dict : List (Bytes × List MiedWord)) (ks : Bytes) : List MiedWord :=
  (Lib.Dict.get? dict ks).getD []

variable (dict : List (Bytes × List MiedWord))

def keyParts : List Bytes := (sortedKeys dict).map keyBytes

def valueParts : List Bytes := (sortedKeys dict).map (fun ks => valueBytes (wordsOf dict ks))

def keysDataOff : ℕ := miedHeaderSize+(sortedKeys dict).length*8

def datBytes : Bytes :=
  magicMied++([2, 0, 0, 0]++([(sortedKeys dict).length, keysDataOff dict].flatMap le32++
    ((miedIndex (keyParts dict) (valueParts dict)).flatMap le32++(keyParts dict).flatten)))

def valBytes : Bytes := (valueParts dict).flatten

/-- What fits in the files of an accepted build. -/
structure MiedFits : Prop where
  keys : ∀ ks ∈ sortedKeys dict, ks.length < 256
  values : ∀ ks ∈ sortedKeys dict, ValueFits (wordsOf dict ks)
  count : (sortedKeys dict).length < 4294967296
  dataOff : keysDataOff dict < 4294967296
  index : ∀ n ∈ miedIndex (keyParts dict) (valueParts dict), n < 4294967296

theorem mied_layout (entries : List MiedEntry) (maxPerKey : ℕ) (dat val : Bytes)
    (h : buildMied entries maxPerKey = some (dat, val)) :
    MiedFits (keyToWords entries maxPerKey) ∧ dat = datBytes (keyToWords entries maxPerKey) ∧
      val = valBytes (keyToWords entries maxPerKey) := by
  rw [buildMied] at h
  generalize keyToWords entries maxPerKey = dict at h ⊢
  simp only [Option.bind_eq_bind, Option.bind_eq_some_iff, Option.pure_def,
    Option.some.injEq, Prod.mk.injEq] at h
  obtain ⟨values, hvalues, keys, hkeys, version, hversion, fields, hfields, index, hindex, rfl,
    rfl⟩ := h
  obtain ⟨rfl, hvalueFits⟩ := map_m_some _ (fun ks => valueBytes (wordsOf dict ks))
    (fun ks => ValueFits (wordsOf dict ks)) (fun ks b => value_record (wordsOf dict ks) b) _ _
    hvalues
  obtain ⟨rfl, hkeyFits⟩ := map_m_some _ keyBytes (fun ks => ks.length < 256) key_record _ _ hkeys
  obtain ⟨rfl, -⟩ := pack_hs _ _ hversion
  obtain ⟨rfl, hfieldFits⟩ := pack_i _ _ hfields
  obtain ⟨rfl, hindexFits⟩ := pack_i _ _ hindex
  refine ⟨⟨hkeyFits, hvalueFits, hfieldFits _ (by simp), hfieldFits _ (by simp [keysDataOff]),
    hindexFits⟩, ?_, rfl⟩
  simp only [datBytes, List.append_assoc]
  rfl

theorem index_length (keys values : List Bytes) : (miedIndex keys values).length = 2*keys.length := by
  simp [miedIndex, List.length_flatMap, Nat.mul_comm]

theorem key_parts_length : (keyParts dict).length = (sortedKeys dict).length := List.length_map _

structure MiedSections : Prop where
  magic : At (datBytes dict) 0 magicMied
  version : At (datBytes dict) 4 [2, 0, 0, 0]
  fields : At (datBytes dict) 8 ([(sortedKeys dict).length, keysDataOff dict].flatMap le32)
  index : At (datBytes dict) 16 ((miedIndex (keyParts dict) (valueParts dict)).flatMap le32)
  keys : At (datBytes dict) (keysDataOff dict) (keyParts dict).flatten

theorem mied_sections : MiedSections dict := by
  obtain ⟨hmagic, h⟩ := (at_append _ _ _ _).mp (at_zero (datBytes dict))
  obtain ⟨hversion, h⟩ := (at_append _ _ _ _).mp h
  obtain ⟨hfields, h⟩ := (at_append _ _ _ _).mp h
  obtain ⟨hindex, hkeys⟩ := (at_append _ _ _ _).mp h
  refine ⟨hmagic, hversion, hfields, hindex, ?_⟩
  simp only [flatMap_le32_length, index_length, key_parts_length] at hkeys
  convert hkeys using 1
  rw [keysDataOff, miedHeaderSize]
  simp only [magicMied, List.length_cons, List.length_nil]
  omega

theorem dat_length :
    (datBytes dict).length = keysDataOff dict+(keyParts dict).flatten.length := by
  rw [datBytes]
  simp only [List.length_append, flatMap_le32_length, index_length, key_parts_length]
  rw [keysDataOff, miedHeaderSize]
  simp only [magicMied, List.length_cons, List.length_nil]
  omega

def miedSearcher : TrieSearcher :=
  ⟨datBytes dict, valBytes dict, (sortedKeys dict).length, keysDataOff dict, 2⟩

theorem mied_load (h : MiedFits dict) :
    TrieSearcher.loadFromMemory (datBytes dict) (valBytes dict) = some (miedSearcher dict) := by
  have hat := mied_sections dict
  have hlen := dat_length dict
  have hoff : keysDataOff dict = 16+(sortedKeys dict).length*8 := rfl
  have hmagic : slice (datBytes dict) 0 4 = TrieSearcher.kMagic := hat.magic.slice_eq
  have hversion : load16 (datBytes dict) 4 = 2 :=
    load16_at (by omega) ((at_append _ [2, 0] [0, 0] _).mp hat.version).1
  have hfits : ∀ n ∈ [(sortedKeys dict).length, keysDataOff dict], n < 4294967296 := by
    simpa using ⟨h.count, h.dataOff⟩
  have hcount : load32 (datBytes dict) 8 = (sortedKeys dict).length :=
    load32_array hat.fields hfits 0 (by simp)
  have hdata : load32 (datBytes dict) 12 = keysDataOff dict :=
    load32_array hat.fields hfits 1 (by simp)
  rw [TrieSearcher.loadFromMemory, hmagic, hversion, hcount, hdata, TrieSearcher.kHeaderSize,
    TrieSearcher.kEntrySize, if_neg (by omega), if_neg (not_not.mpr rfl), if_neg (by omega),
    if_neg (by omega), if_neg (by omega)]
  rfl

variable {dict}

theorem index_entry (h : MiedFits dict) (i : ℕ) (hi : i < (sortedKeys dict).length) :
    load32 (datBytes dict) (16+i*8) = start (keyParts dict) i ∧
      load32 (datBytes dict) (16+i*8+4) = start (valueParts dict) i := by
  have hindex := (mied_sections dict).index
  have hfits := h.index
  rw [miedIndex] at hfits
  rw [miedIndex, List.flatMap_assoc] at hindex
  have hlen : i < (List.range (keyParts dict).length).length := by
    rwa [List.length_range, key_parts_length]
  have hat := at_array _ 8 (fun _ => rfl) hindex i hlen
  rw [List.getElem_range, Nat.mul_comm 8 i] at hat
  have hpair : ∀ n ∈ [start (keyParts dict) i, start (valueParts dict) i], n < 4294967296 :=
    fun n hmem => hfits n (List.mem_flatMap.mpr ⟨i, by simpa using hlen, hmem⟩)
  exact ⟨load32_array hat hpair 0 (by simp), load32_array hat hpair 1 (by simp)⟩

theorem key_at (i : ℕ) (hi : i < (sortedKeys dict).length) :
    At (datBytes dict) (keysDataOff dict+start (keyParts dict) i)
      (keyBytes (sortedKeys dict)[i]) := by
  have hat := at_flatten _ _ _ (mied_sections dict).keys i (by rwa [key_parts_length])
  simpa [keyParts, start] using hat

theorem value_at (i : ℕ) (hi : i < (sortedKeys dict).length) :
    At (valBytes dict) (start (valueParts dict) i)
      (valueBytes (wordsOf dict (sortedKeys dict)[i])) := by
  have hat := at_flatten _ (valueParts dict) 0 (at_zero (valBytes dict)) i (by
    rwa [valueParts, List.length_map])
  simpa [valueParts, start] using hat

theorem memcmp_lt (k q : Bytes) :
    (memcmp (k.take (min k.length q.length)) (q.take (min k.length q.length))).then
      (compare k.length q.length) = .lt ↔ k < q := by
  induction k generalizing q with
  | nil =>
    cases q with
    | nil => simp [memcmp]
    | cons b q => simp [memcmp, Nat.compare_eq_lt]
  | cons a k ih =>
    cases q with
    | nil => simp [memcmp, Nat.compare_eq_lt]
    | cons b q =>
      have hlen : compare (k.length+1) (q.length+1) = compare k.length q.length := by
        simp only [compare, compareOfLessAndEq, Nat.add_lt_add_iff_right, Nat.add_right_cancel_iff]
      rw [List.length_cons, List.length_cons, Nat.succ_min_succ, List.take_succ_cons,
        List.take_succ_cons, memcmp, Ordering.then_assoc, hlen, List.cons_lt_cons_iff, ← ih q,
        Ordering.then_eq_lt, Std.compare_eq_lt, Std.LawfulEqOrd.compare_eq_iff_eq]

/-- Sizes that the 32-bit offsets of the searcher reach. -/
structure Reaches (dict : List (Bytes × List MiedWord)) : Prop where
  dat : (datBytes dict).length < 4294967296
  val : (valBytes dict).length < 4294967296

theorem key_pos (h : MiedFits dict) (hr : Reaches dict) (i : ℕ) (hi : i < (sortedKeys dict).length) :
    (miedSearcher dict).keyPos i = keysDataOff dict+start (keyParts dict) i ∧
      (miedSearcher dict).keyPos i+1+(sortedKeys dict)[i].length ≤ (datBytes dict).length := by
  have hfits := (key_at i hi).fits (List.cons_ne_nil _ _)
  rw [keyBytes, List.length_cons] at hfits
  have hdat := hr.dat
  have hpos : (miedSearcher dict).keyPos i = keysDataOff dict+start (keyParts dict) i := by
    rw [TrieSearcher.keyPos]
    simp only [miedSearcher, TrieSearcher.kHeaderSize, TrieSearcher.kEntrySize,
      (index_entry h i hi).1]
    exact TrieSearcher.u32_of_lt _ (by omega)
  exact ⟨hpos, by omega⟩

theorem key_bytes (h : MiedFits dict) (hr : Reaches dict) (i : ℕ)
    (hi : i < (sortedKeys dict).length) :
    byteAt (datBytes dict) ((miedSearcher dict).keyPos i) = (sortedKeys dict)[i].length ∧
      At (datBytes dict) ((miedSearcher dict).keyPos i+1) (sortedKeys dict)[i] := by
  rw [(key_pos h hr i hi).1]
  obtain ⟨hlen, hkey⟩ := (at_cons _ _ _ _).mp (key_at i hi)
  exact ⟨byte_at (h.keys _ (List.getElem_mem hi)) hlen, hkey⟩

theorem slice_take (b l : Bytes) (off n : ℕ) (h : At b off l) (hn : n ≤ l.length) :
    slice b off n = l.take n := by
  obtain ⟨rest, h⟩ := h
  rw [slice, ← h, List.take_append_of_le_length hn]

theorem compare_key (h : MiedFits dict) (hr : Reaches dict) (i : ℕ)
    (hi : i < (sortedKeys dict).length) (q : Bytes) :
    (miedSearcher dict).compareKey i q = .lt ↔ (sortedKeys dict)[i] < q := by
  obtain ⟨hlen, hkey⟩ := key_bytes h hr i hi
  have hfits := (key_pos h hr i hi).2
  have hdat := hr.dat
  rw [TrieSearcher.compareKey]
  simp only [TrieSearcher.key_pos_eq]
  have hbuf : (miedSearcher dict).dat = datBytes dict := rfl
  have hnext : u32 ((miedSearcher dict).keyPos i+1) = (miedSearcher dict).keyPos i+1 :=
    TrieSearcher.u32_of_lt _ (by omega)
  rw [hbuf, hlen, hnext, TrieSearcher.u32_of_lt _ (by omega), if_neg (by omega), if_neg (by omega),
    slice_take _ _ _ _ hkey (Nat.min_le_left _ _)]
  exact memcmp_lt _ _

theorem matches_iff (h : MiedFits dict) (hr : Reaches dict) (i : ℕ)
    (hi : i < (sortedKeys dict).length) (q : Bytes) :
    (miedSearcher dict).Matches q i ↔ q <+: (sortedKeys dict)[i] := by
  obtain ⟨hlen, hkey⟩ := key_bytes h hr i hi
  have hfits := (key_pos h hr i hi).2
  have hdat := hr.dat
  have hbuf : (miedSearcher dict).dat = datBytes dict := rfl
  have hnext : u32 ((miedSearcher dict).keyPos i+1) = (miedSearcher dict).keyPos i+1 :=
    TrieSearcher.u32_of_lt _ (by omega)
  rw [TrieSearcher.Matches, hbuf, hlen, hnext, TrieSearcher.u32_of_lt _ (by omega)]
  constructor
  · rintro ⟨-, -, hle, hslice⟩
    rw [slice_take _ _ _ _ hkey hle] at hslice
    exact hslice ▸ List.take_prefix _ _
  · intro hpre
    refine ⟨by omega, hfits, hpre.length_le, ?_⟩
    rw [slice_take _ _ _ _ hkey hpre.length_le]
    exact (List.prefix_iff_eq_take.mp hpre).symm

def MiedWord.candidate (w : MiedWord) : Candidate :=
  .ofBytes ((Ime.text w.word).take 31) w.stored w.tone
    (lt_of_le_of_lt (List.length_take_le _ _) (by decide))

/-- A string that a search can show: it has a byte and none of them ends it. -/
def MiedWord.Shown (w : MiedWord) : Prop := w.word ≠ [] ∧ 0 ∉ Ime.text w.word

theorem valid_length (wordList : List MiedWord) (w : MiedWord) (h : w ∈ validWords wordList) :
    (Ime.text w.word).length < 31 := by
  rw [validWords, List.mem_filter] at h
  exact of_decide_eq_true h.2

theorem candidate_word (w : MiedWord) (hw : w.Shown) (hlen : (Ime.text w.word).length < 31) :
    w.candidate.word = Ime.text w.word := by
  have htake : w.candidate.word = cstr ((Ime.text w.word).take 31) := rfl
  rw [htake, List.take_of_length_le (by omega), cstr, List.takeWhile_eq_self_iff]
  intro c hc
  have hne : c ≠ 0 := fun heq => hw.2 (heq ▸ hc)
  simpa using hne

theorem text_ne_nil (cs : List Char) (h : cs ≠ []) : (Ime.text cs).length ≠ 0 := by
  intro hnil
  exact h (Ime.text_injective (List.eq_nil_of_length_eq_zero hnil))

theorem insert_word (maxResults : ℕ) (out : List Candidate) (c : Candidate) :
    TrieSearcher.insertWord maxResults out c =
      Lib.Leaderboard.insert Candidate.freq maxResults out c := by
  rw [TrieSearcher.insertWord, Lib.Leaderboard.insert]
  cases out.getLast? with
  | none => rfl
  | some last => rfl

structure WordAt (t : TrieSearcher) (vo : ℕ) (w : MiedWord) : Prop where
  freq : load16 t.val vo = w.stored
  tone : t.toneAt vo = w.tone
  length : t.wlenAt vo = (Ime.text w.word).length
  text : slice t.val (vo+4) (Ime.text w.word).length = Ime.text w.word
  fits : vo+(4+(Ime.text w.word).length) ≤ t.val.length

theorem mied_word_length (w : MiedWord) :
    (miedWordBytes w).length = 4+(Ime.text w.word).length := by
  rw [miedWordBytes, List.length_append, le16_length, List.length_cons, List.length_cons]
  omega

theorem word_at (t : TrieSearcher) (htone : t.hasTone = true) (vo : ℕ) (w : MiedWord)
    (hw : MiedWordFits w) (h : At t.val vo (miedWordBytes w)) : WordAt t vo w := by
  have hend := h.fits (by rw [← List.length_pos_iff, mied_word_length]; omega)
  obtain ⟨hfreq, hrest⟩ := (at_append _ _ _ _).mp h
  obtain ⟨htoneAt, hrest⟩ := (at_cons _ _ _ _).mp hrest
  obtain ⟨hlenAt, htext⟩ := (at_cons _ _ _ _).mp hrest
  constructor
  · exact load16_at w.stored_lt hfreq
  · rw [TrieSearcher.toneAt, if_pos htone]
    exact byte_at hw.tone htoneAt
  · rw [TrieSearcher.wlenAt, if_pos htone]
    exact byte_at hw.length hlenAt
  · exact htext.slice_eq
  · rwa [mied_word_length] at hend

theorem merge_words (t : TrieSearcher) (hversion : t.version = 2) (hval : t.val.length < 4294967296)
    (maxResults : ℕ) (ws : List MiedWord) (hfits : ∀ w ∈ ws, MiedWordFits w)
    (hlen : ∀ w ∈ ws, (Ime.text w.word).length < 31) (hshown : ∀ w ∈ ws, w.Shown) (vo : ℕ)
    (h : At t.val vo (ws.flatMap miedWordBytes)) (out : List Candidate) :
    t.mergeWords maxResults ws.length vo out = (ws.map MiedWord.candidate).foldl
      (Lib.Leaderboard.offer Candidate.freq Candidate.word maxResults) out := by
  have htone : t.hasTone = true := by rw [TrieSearcher.hasTone, hversion]; rfl
  have hhdr : t.hdrBytes = 4 := by rw [TrieSearcher.hdrBytes, if_pos htone]
  induction ws generalizing vo out with
  | nil => rfl
  | cons w ws ih =>
    have hmem : w ∈ w::ws := List.mem_cons_self ..
    have hw31 := hlen w hmem
    have hne := text_ne_nil w.word (hshown w hmem).1
    rw [List.flatMap_cons, at_append, mied_word_length] at h
    have hword := word_at t htone vo w (hfits w hmem) h.1
    have hend := hword.fits
    have htake : (Ime.text w.word).take 31 = Ime.text w.word := List.take_of_length_le (by omega)
    have hslice := hword.text.trans htake.symm
    have hcand := (candidate_word w (hshown w hmem) hw31).trans htake.symm
    have hnext : u32 (vo+4) = vo+4 := TrieSearcher.u32_of_lt _ (by omega)
    have hskip : u32 (vo+4+(Ime.text w.word).length) = vo+(4+(Ime.text w.word).length) := by
      rw [TrieSearcher.u32_of_lt _ (by omega), Nat.add_assoc]
    have ih := fun out => ih (fun v hv => hfits v (List.mem_cons_of_mem w hv))
      (fun v hv => hlen v (List.mem_cons_of_mem w hv))
      (fun v hv => hshown v (List.mem_cons_of_mem w hv)) _ h.2 out
    rw [List.length_cons, TrieSearcher.mergeWords, List.map_cons, List.foldl_cons]
    simp only [hhdr, hword.length, hnext, hskip, hslice, hword.freq, hword.tone]
    rw [if_neg (by omega), if_neg (by omega), dif_neg (by simp only [kCandidateMaxBytes]; omega),
      Lib.Leaderboard.offer, hcand]
    split
    · exact ih out
    · rw [insert_word]
      exact ih _

end MokyaLora.GenDict
