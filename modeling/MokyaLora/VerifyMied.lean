import MokyaLora.CompositionMatch
import MokyaLora.Lib.ByteReader
import Mathlib.Data.List.GetD

/-!
# The dictionary verifier

`read_v4` of `verify_mied_v4.py` reads a dictionary front to back, without the offset
tables that the searcher of the device goes by. Any exception is `none`.
-/

set_option autoImplicit false

namespace MokyaLora.VerifyMied
open Lib.Fields Lib.ByteReader Lib.Buckets GenDict
open CompositionSearcher (unpackPhonemePos pack_four unpack_pack)

structure ReadingRow where
  kbytes : Bytes
  pos : List ℕ
  tone : ℕ
  freq : ℕ
  deriving DecidableEq

structure WordRow where
  charIds : List ℕ
  readingIdxs : List ℕ
  freq : ℕ
  deriving DecidableEq

structure MiedV4 where
  version : ℕ
  flags : ℕ
  hasPhonemePos : Bool
  charCount : ℕ
  wordCount : ℕ
  offsets : List ℕ
  totalBytes : ℕ
  charTable : List (List Char × List ReadingRow)
  groupHeaders : List (ℕ × ℕ)
  wordTable : List WordRow
  firstCharIdx : List (ℕ × List ℕ)
  keyToCharIdx : List (ℕ × List ℕ)
  deriving DecidableEq

def decode (utf8 : Bytes) : Option (List Char) :=
  (utf8.toByteArray.utf8Decode?).map Array.toList

def unpackPos (packed klen : ℕ) : List ℕ :=
  (List.range klen).map (fun i => (packed >>> (2*i)) &&& 3)

def posRow (blob : Bytes) (hasPhonemePos : Bool) (klen : ℕ) : Reader (List ℕ) :=
  if hasPhonemePos then do
    let posPacked ← byte blob
    pure (unpackPos posPacked klen)
  else pure []

def readingRow (blob : Bytes) (hasPhonemePos : Bool) : Reader ReadingRow := do
  let klen ← byte blob
  let kbytes ← bytes blob klen
  let pos ← posRow blob hasPhonemePos klen
  let tone ← byte blob
  let freq ← half blob
  pure ⟨kbytes, pos, tone, freq⟩

def charRow (blob : Bytes) (hasPhonemePos : Bool) : Reader (List Char × List ReadingRow) := do
  let utf8Len ← byte blob
  let utf8 ← bytes blob utf8Len
  let ch ← StateT.lift (decode utf8)
  let rcount ← byte blob
  let readings ← many (readingRow blob hasPhonemePos) rcount
  pure (ch, readings)

def groupHeader (blob : Bytes) : Reader (ℕ × ℕ) := do
  let cnt ← word blob
  let start ← word blob
  pure (cnt, start)

def idxsRow (blob : Bytes) (flagsW n : ℕ) : Reader (List ℕ) :=
  if flagsW % 2 = 1 then do
    let idxs ← bytes blob n
    pure (idxs.map UInt8.toNat)
  else pure (List.replicate n 0)

def wordRow (blob : Bytes) : Reader WordRow := do
  let n ← byte blob
  let flagsW ← byte blob
  let freq ← half blob
  let charIds ← many (half blob) n
  let readingIdxs ← idxsRow blob flagsW n
  pure ⟨charIds, readingIdxs, freq⟩

def wordRows (blob : Bytes) : List (ℕ × ℕ) → Reader (List WordRow)
  | [] => pure []
  | (cnt, _)::headers => do
    let words ← many (wordRow blob) cnt
    let rest ← wordRows blob headers
    pure (words++rest)

def wordTable (blob : Bytes) : Reader (List (ℕ × ℕ) × List WordRow) := do
  let headers ← many (groupHeader blob) 8
  let words ← wordRows blob headers
  pure (headers, words)

/-- Offsets, and as many ids as the last one says. -/
def indexRow (blob : Bytes) (id : Reader ℕ) (n : ℕ) : Reader (List ℕ × List ℕ) := do
  let offsets ← many (word blob) (n+1)
  let ids ← many id (offsets.getLastD 0)
  pure (offsets, ids)

def index (base n : ℕ) (x : List ℕ × List ℕ) : List (ℕ × List ℕ) :=
  (List.range n).filterMap (fun i =>
    let s := x.1.getD i 0
    let e := x.1.getD (i+1) 0
    if s < e then some (base+i, (x.2.drop s).take (e-s)) else none)

def numSlots : ℕ := 24

def keyMin : ℕ := 0x20

def readV4 (blob : Bytes) : Option MiedV4 :=
  let version := load16 blob 4
  let flags := load16 blob 6
  let charCount := load32 blob 8
  let wordCount := load32 blob 12
  let hasPhonemePos := flags % 2 == 1
  if blob.length < 0x30 then none
  else if blob.take 4 ≠ magicV4 then none
  else if version ≠ 4 then none
  else do
    let (charTable, _) ← many (charRow blob hasPhonemePos) charCount (load32 blob 16)
    let (words, _) ← wordTable blob (load32 blob 20)
    if words.2.length ≠ wordCount then none
    else do
      let (first, _) ← indexRow blob (word blob) charCount (load32 blob 24)
      let (key, _) ← indexRow blob (half blob) numSlots (load32 blob 28)
      pure
        { version := version
          flags := flags
          hasPhonemePos := hasPhonemePos
          charCount := charCount
          wordCount := wordCount
          offsets := [load32 blob 16, load32 blob 20, load32 blob 24, load32 blob 28]
          totalBytes := blob.length
          charTable := charTable
          groupHeaders := words.1
          wordTable := words.2
          firstCharIdx := index 0 charCount first
          keyToCharIdx := index keyMin numSlots key }

/-- The byte has room for four positions; those behind them read as 0. -/
def storedPos (r : Reading) : List ℕ := r.pos.take 4++List.replicate (r.keyseq.length-4) 0

def readingOut (r : Reading) : ReadingRow :=
  ⟨r.keyseq, storedPos r, r.tone, min r.freq 0xFFFF⟩

def charOut (p : Char × List Reading) : List Char × List ReadingRow :=
  ([p.1], p.2.map readingOut)

def wordOut (w : WordEntry) : WordRow :=
  ⟨w.charIds, w.readingIdxs, (min w.freq 0xFFFF).toNat⟩

theorem pack_take (pos : List ℕ) : packPhonemePos pos = packPhonemePos (pos.take 4) := by
  rw [packPhonemePos, packPhonemePos, List.take_take, Nat.min_self]

theorem pack_lt (pos : List ℕ) : packPhonemePos pos < 256 := by
  have hall : ∀ a < 4, ∀ b < 4, ∀ c < 4, ∀ d < 4,
      0 ||| a <<< 0 ||| b <<< 2 ||| c <<< 4 ||| d <<< 6 < 256 := by
    decide +kernel
  have hlt : ∀ m : ℕ, min m 3 < 4 := fun m => Nat.lt_succ_of_le (Nat.min_le_right m 3)
  rw [pack_take, pack_four _ (List.length_take_le _ _)]
  exact hall _ (hlt _) _ (hlt _) _ (hlt _) _ (hlt _)

theorem unpack_stored (r : Reading) (hr : ReadingOk r) :
    unpackPos (packPhonemePos r.pos) r.keyseq.length = storedPos r := by
  obtain ⟨hlen, hsmall⟩ := hr.pos
  refine List.ext_getElem ?_ (fun i hi _ => ?_)
  · rw [unpackPos, storedPos, List.length_map, List.length_range, List.length_append,
      List.length_take, List.length_replicate]
    omega
  · rw [unpackPos, List.length_map, List.length_range] at hi
    simp only [unpackPos, storedPos, List.getElem_map, List.getElem_range]
    by_cases hfour : i < 4
    · have htake : i < (r.pos.take 4).length := by
        rw [List.length_take]
        omega
      have hpos := hsmall r.pos[i] (List.getElem_mem (by omega))
      rw [List.getElem_append_left htake, pack_take]
      refine (unpack_pack (r.pos.take 4) (List.length_take_le _ _) i htake).trans ?_
      rw [List.getElem_take]
      omega
    · have hzero : packPhonemePos r.pos >>> (2*i) = 0 := by
        rw [Nat.shiftRight_eq_div_pow]
        refine Nat.div_eq_of_lt (lt_of_lt_of_le (pack_lt r.pos) ?_)
        exact Nat.pow_le_pow_right (Nat.succ_pos 1) (show 8 ≤ 2*i by omega)
      rw [hzero, List.getElem_append_right (by rw [List.length_take]; omega),
        List.getElem_replicate]
      rfl

theorem decode_char (c : Char) : decode (Ime.utf8 c) = some [c] := by
  have h : (Ime.utf8 c).toByteArray = [c].utf8Encode := by
    rw [List.utf8Encode, List.flatMap_singleton]
    rfl
  rw [decode, h, List.utf8Decode?_utf8Encode]
  rfl

theorem reads_pos (b : Bytes) (packed klen : ℕ) (h : packed < 256) :
    Reads b (posRow b true klen) [UInt8.ofNat packed] (unpackPos packed klen) :=
  reads_map (fun packed => unpackPos packed klen) (reads_byte b packed h)

theorem reads_reading (b : Bytes) (r : Reading) (hr : ReadingFits r) (hok : ReadingOk r) :
    Reads b (readingRow b true) (readingBytes r) (readingOut r) := by
  have hparts : readingBytes r = [UInt8.ofNat r.keyseq.length]++(r.keyseq++
      ([UInt8.ofNat (packPhonemePos r.pos)]++([UInt8.ofNat r.tone]++le16 (min r.freq 0xFFFF)))) :=
    rfl
  rw [readingRow, hparts, readingOut, ← unpack_stored r hok]
  refine reads_bind (reads_byte b _ hr.klen) ?_
  refine reads_bind (reads_bytes b r.keyseq) ?_
  refine reads_bind (reads_pos b _ _ hr.pos) ?_
  refine reads_bind (reads_byte b _ hr.tone) ?_
  exact reads_map _ (reads_half b _ (by omega))

theorem reads_char (b : Bytes) (p : Char × List Reading) (hp : CharFits p)
    (hok : ∀ r ∈ p.2, ReadingOk r) :
    Reads b (charRow b true) (charBytes p) (charOut p) := by
  have hparts : charBytes p = [UInt8.ofNat (Ime.utf8 p.1).length]++(Ime.utf8 p.1++
      ([]++([UInt8.ofNat p.2.length]++p.2.flatMap readingBytes))) := rfl
  rw [charRow, hparts]
  refine reads_bind (reads_byte b _ hp.ulen) ?_
  refine reads_bind (reads_bytes b (Ime.utf8 p.1)) ?_
  refine reads_bind (reads_lift (decode_char p.1)) ?_
  refine reads_bind (reads_byte b _ hp.count) ?_
  exact reads_map _ (reads_many readingBytes readingOut p.2
    (fun r hr => reads_reading b r (hp.readings r hr) (hok r hr)))

theorem no_overrides (w : WordEntry) (hlen : w.readingIdxs.length = w.charIds.length)
    (ho : ¬ hasOverrides w) : w.readingIdxs = List.replicate w.charIds.length 0 := by
  rw [List.eq_replicate_iff]
  refine ⟨hlen, fun i hi => ?_⟩
  simp only [hasOverrides, List.any_eq_true, not_exists, not_and, decide_eq_true_eq, ne_eq,
    not_not] at ho
  exact ho i hi

theorem reads_idxs (b : Bytes) (w : WordEntry) (hw : WordFits w)
    (hlen : w.readingIdxs.length = w.charIds.length) :
    Reads b (idxsRow b (wordFlags w) w.charIds.length) ((overrides w).map UInt8.ofNat)
      w.readingIdxs := by
  by_cases ho : hasOverrides w
  · have hidx : overrides w = w.readingIdxs := by rw [overrides, if_pos ho]
    have hback : (w.readingIdxs.map UInt8.ofNat).map UInt8.toNat = w.readingIdxs := by
      rw [List.map_map]
      conv_rhs => rw [← List.map_id w.readingIdxs]
      refine List.map_congr_left (fun i hi => ?_)
      have hi := hw.idxs i (hidx ▸ hi)
      rw [Function.comp, UInt8.toNat_ofNat', Nat.mod_eq_of_lt hi, id]
    rw [wordFlags, if_pos ho, idxsRow, if_pos rfl, hidx]
    have hread := reads_map (fun idxs => idxs.map UInt8.toNat)
      (reads_bytes b (w.readingIdxs.map UInt8.ofNat))
    rwa [hback, List.length_map, hlen] at hread
  · rw [wordFlags, if_neg ho, overrides, if_neg ho, idxsRow, if_neg (by decide),
      no_overrides w hlen ho]
    exact reads_pure b _

theorem reads_word_row (b : Bytes) (w : WordEntry) (hw : WordFits w)
    (hlen : w.readingIdxs.length = w.charIds.length) :
    Reads b (wordRow b) (wordBytes w) (wordOut w) := by
  have hflags : wordFlags w < 256 := by
    unfold wordFlags
    split <;> decide
  have hparts : wordBytes w = [UInt8.ofNat w.charIds.length]++([UInt8.ofNat (wordFlags w)]++
      (le16 (min w.freq 0xFFFF).toNat++(w.charIds.flatMap le16++
        (overrides w).map UInt8.ofNat))) := rfl
  rw [wordRow, hparts]
  refine reads_bind (reads_byte b _ hw.count) ?_
  refine reads_bind (reads_byte b _ hflags) ?_
  refine reads_bind (reads_half b _ (by have := hw.freq; omega)) ?_
  refine reads_bind (reads_halves b w.charIds hw.ids) ?_
  exact reads_map _ (reads_idxs b w hw hlen)

theorem reads_header (b : Bytes) (p : ℕ × ℕ) (h : p.1 < 4294967296 ∧ p.2 < 4294967296) :
    Reads b (groupHeader b) (le32 p.1++le32 p.2) p :=
  reads_bind (reads_word b p.1 h.1) (reads_map (fun start => (p.1, start)) (reads_word b p.2 h.2))

theorem reads_word_rows (b : Bytes) (groups : List (List WordEntry)) (headers : List (ℕ × ℕ))
    (hcount : headers.map Prod.fst = groups.map List.length)
    (hw : ∀ g ∈ groups, ∀ w ∈ g, WordFits w ∧ w.readingIdxs.length = w.charIds.length) :
    Reads b (wordRows b headers) (groups.flatten.flatMap wordBytes)
      (groups.flatten.map wordOut) := by
  induction groups generalizing headers with
  | nil =>
    rw [List.map_nil, List.map_eq_nil_iff] at hcount
    rw [hcount]
    exact reads_pure b []
  | cons g groups ih =>
    obtain ⟨p, ps, rfl, hp, hps⟩ := List.map_eq_cons_iff.mp hcount
    have hrest := ih ps hps (fun x hx => hw x (List.mem_cons_of_mem g hx))
    have hgroup := reads_many (r := wordRow b) wordBytes wordOut g (fun w hmem =>
      reads_word_row b w (hw g List.mem_cons_self w hmem).1 (hw g List.mem_cons_self w hmem).2)
    rw [List.flatten_cons, List.flatMap_append, List.map_append, wordRows, hp]
    exact reads_bind hgroup (reads_map _ hrest)

def headersOf (groups : List (List WordEntry)) : List (ℕ × ℕ) :=
  (List.range maxGroup).map (fun g => ((groups.getD g []).length, start groups g))

theorem headers_bytes (groups : List (List WordEntry)) :
    (groupHeaders groups).flatMap le32 =
      (headersOf groups).flatMap (fun p => le32 p.1++le32 p.2) := by
  rw [groupHeaders, headersOf, List.flatMap_assoc, List.flatMap_map]
  rfl

theorem headers_count (groups : List (List WordEntry)) (h : groups.length = maxGroup) :
    (headersOf groups).map Prod.fst = groups.map List.length := by
  rw [headersOf, List.map_map]
  apply List.ext_getElem
  · rw [List.length_map, List.length_map, List.length_range, h]
  · intro g _ hg
    rw [List.length_map] at hg
    rw [List.getElem_map, List.getElem_map, List.getElem_range, Function.comp,
      List.getD_eq_getElem _ _ hg]

theorem reads_word_table (b : Bytes) (raw : List RawEntry)
    (hgroups : ∀ n ∈ groupHeaders (dictGroups raw), n < 4294967296)
    (hwords : ∀ w ∈ dictWords raw, WordFits w) :
    Reads b (wordTable b)
      ((groupHeaders (dictGroups raw)).flatMap le32++(dictWords raw).flatMap wordBytes)
      (headersOf (dictGroups raw), (dictWords raw).map wordOut) := by
  have hfits : ∀ p ∈ headersOf (dictGroups raw), p.1 < 4294967296 ∧ p.2 < 4294967296 := by
    intro p hp
    obtain ⟨g, hg, rfl⟩ := List.mem_map.mp hp
    exact ⟨hgroups _ (List.mem_flatMap.mpr ⟨g, hg, List.mem_cons_self⟩),
      hgroups _ (List.mem_flatMap.mpr ⟨g, hg, List.mem_cons_of_mem _ List.mem_cons_self⟩)⟩
  have hheaders := reads_many (r := groupHeader b) (fun p => le32 p.1++le32 p.2) id
    (headersOf (dictGroups raw)) (fun p hp => reads_header b p (hfits p hp))
  have hlen : (headersOf (dictGroups raw)).length = 8 := by
    rw [headersOf, List.length_map, List.length_range]
    rfl
  rw [List.map_id, hlen, ← headers_bytes] at hheaders
  have hrows := reads_word_rows b (dictGroups raw) (headersOf (dictGroups raw))
    (headers_count _ (grouped_length _)) (fun g hg w hw =>
      ⟨hwords w (List.mem_flatten.mpr ⟨g, hg, hw⟩),
        (dict_words_ok raw w (List.mem_flatten.mpr ⟨g, hg, hw⟩)).idxs⟩)
  rw [wordTable]
  exact reads_bind hheaders (reads_map _ hrows)

theorem starts_last (buckets : List (List ℕ)) (o d : ℕ) :
    (starts o buckets).getLastD d = o+buckets.flatten.length := by
  induction buckets generalizing o d with
  | nil => rfl
  | cons x buckets ih =>
    rw [starts, List.getLastD_cons, ih, List.flatten_cons, List.length_append, Nat.add_assoc]

theorem reads_index (b : Bytes) (id : Reader ℕ) (ids : Bytes) (buckets : List (List ℕ)) (n : ℕ)
    (hn : buckets.length = n) (hs : ∀ k ∈ starts 0 buckets, k < 4294967296)
    (hids : Reads b (many id buckets.flatten.length) ids buckets.flatten) :
    Reads b (indexRow b id n) ((starts 0 buckets).flatMap le32++ids)
      (starts 0 buckets, buckets.flatten) := by
  have hoffsets := reads_words b (starts 0 buckets) hs
  rw [starts_length, hn] at hoffsets
  rw [indexRow]
  refine reads_bind hoffsets ?_
  rw [starts_last, Nat.zero_add]
  exact reads_map _ hids

/-- The lists that are not empty, under their numbers. -/
def listed (base n : ℕ) (f : ℕ → List ℕ) : List (ℕ × List ℕ) :=
  (List.range n).filterMap (fun i => if f i ≠ [] then some (base+i, f i) else none)

theorem index_buckets (base n : ℕ) (f : ℕ → List ℕ) :
    index base n (starts 0 ((List.range n).map f), ((List.range n).map f).flatten) =
      listed base n f := by
  have hlen : ((List.range n).map f).length = n := by rw [List.length_map, List.length_range]
  refine List.filterMap_congr (fun i hi => ?_)
  rw [List.mem_range] at hi
  have hi' : i < ((List.range n).map f).length := by rwa [hlen]
  have hbucket : ((List.range n).map f)[i] = f i := by rw [List.getElem_map, List.getElem_range]
  have hstart : (starts 0 ((List.range n).map f)).getD i 0 = start ((List.range n).map f) i := by
    rw [List.getD_eq_getElem _ _ (by rw [starts_length, hlen]; omega), starts_getElem, Nat.zero_add]
  have hend : (starts 0 ((List.range n).map f)).getD (i+1) 0 =
      start ((List.range n).map f) i+(f i).length := by
    rw [List.getD_eq_getElem _ _ (by rw [starts_length, hlen]; omega), starts_getElem, Nat.zero_add,
      start_succ _ _ hi', hbucket]
  have hslice := bucket_slice _ i hi'
  rw [hbucket] at hslice
  simp only [hstart, hend, Nat.add_sub_cancel_left, hslice]
  cases f i with
  | nil => simp
  | cons x xs => simp

structure Verified (raw : List RawEntry) (d : MiedV4) : Prop where
  version : d.version = 4 ∧ d.flags = 1 ∧ d.hasPhonemePos = true
  counts : d.charCount = (buildCharTableV4 raw).length ∧ d.wordCount = (dictWords raw).length
  chars : d.charTable = (buildCharTableV4 raw).map charOut
  groups : d.groupHeaders = headersOf (dictGroups raw)
  words : d.wordTable = (dictWords raw).map wordOut
  firstChar : d.firstCharIdx =
    listed 0 (buildCharTableV4 raw).length (wordsByFirstChar (dictWords raw))
  keys : d.keyToCharIdx = listed keyMin numSlots (charsByKey (buildCharTableV4 raw))

theorem read_back (raw : List RawEntry) (enDat enVal blob : Bytes)
    (h : buildMiedV4 raw enDat enVal = some blob) :
    ∃ d, readV4 blob = some d ∧ Verified raw d ∧ d.totalBytes = blob.length := by
  obtain ⟨s, hb, -, rfl⟩ := build_layout raw enDat enVal blob h
  obtain ⟨hmagic, hversion, hflags, -⟩ := header_at raw s s.body hb
  obtain ⟨hchars, hwords, hcharOff, hwordOff, hfirstOff, hkeyOff, -⟩ := header_fields hb
  have hat := sections_at raw s
  have hsize : ¬ (headerBytes raw s++s.body).length < 0x30 := by
    rw [List.length_append, header_length]
    omega
  generalize headerBytes raw s++s.body = b at *
  have hc := reads_many (r := charRow b true) charBytes charOut (buildCharTableV4 raw)
    (fun p hp => reads_char b p (hb.charFits p hp) (char_table_ok raw p hp).reading) _
    (hb.chars ▸ hat.chars)
  have hw := reads_word_table b raw hb.groupFits hb.wordFits _ (hb.words ▸ hat.words)
  have hfirst : (firstCharBuckets (dictWords raw) (buildCharTableV4 raw).length).length =
      (buildCharTableV4 raw).length := by
    rw [firstCharBuckets, List.length_map, List.length_range]
  have hkeys : (keyBuckets (buildCharTableV4 raw)).length = numSlots := by
    rw [keyBuckets, List.length_map, List.length_range]
    rfl
  have hf := reads_index b (word b) _ _ _ hfirst hb.firstFits.1
    (reads_words b _ hb.firstFits.2) _ (hb.firstIdx ▸ hat.firstIdx)
  have hk := reads_index b (half b) _ _ _ hkeys hb.keyFits.1
    (reads_halves b _ hb.keyFits.2) _ (hb.keyIdx ▸ hat.keyIdx)
  refine ⟨?_, ?_, ?_, ?_⟩
  rotate_left
  · rw [readV4]
    simp only [hversion, hflags, hchars, hwords, hcharOff, hwordOff, hfirstOff, hkeyOff]
    rw [if_neg hsize, if_neg (not_not.mpr (show b.take 4 = magicV4 from hmagic)),
      if_neg (not_not.mpr rfl)]
    rw [show ((1 : ℕ) % 2 == 1) = true from rfl, hc]
    simp only [Option.bind_eq_bind, Option.bind_some, hw, hf, hk, List.length_map, ne_eq,
      not_true_eq_false, if_false]
    rfl
  · exact ⟨⟨rfl, rfl, rfl⟩, ⟨rfl, rfl⟩, rfl, rfl, rfl, index_buckets 0 _ _, index_buckets _ _ _⟩
  · rfl

/-- A reading of the searcher as the verifier shows it. -/
def seenReading (v : ReadingView) : ReadingRow :=
  ⟨v.keyseq, (List.range v.keyseq.length).map (unpackPhonemePos v.posPacked), v.tone, v.freq⟩

def seenWord (v : WordView) : WordRow :=
  ⟨v.charIds, v.readingIdxs.getD (List.replicate v.charIds.length 0), v.freq⟩

structure Agrees (t : CompositionSearcher) (d : MiedV4) : Prop where
  chars : ∀ cid row, d.charTable[cid]? = some row →
    (t.charDataAt cid).1 = row.1.flatMap Ime.utf8 ∧
      ∀ idx, (t.getReading cid idx).map seenReading = row.2[idx]?
  words : ∀ wid, (t.getWord wid).map seenWord = d.wordTable[wid]?
  firstChar : ∀ cid < d.charCount, t.wordsFrom cid = (d.firstCharIdx.lookup cid).getD []
  keys : ∀ slot < numSlots,
    t.charsFrom (UInt8.ofNat (keyMin+slot)) = (d.keyToCharIdx.lookup (keyMin+slot)).getD []

theorem listed_succ (base n : ℕ) (f : ℕ → List ℕ) :
    listed base (n+1) f = listed base n f++(if f n ≠ [] then [(base+n, f n)] else []) := by
  rw [listed, List.range_succ, List.filterMap_append]
  congr 1
  by_cases hf : f n ≠ []
  · rw [if_pos hf, List.filterMap_cons_some (by rw [if_pos hf]), List.filterMap_nil]
  · rw [if_neg hf, List.filterMap_cons_none (by rw [if_neg hf]), List.filterMap_nil]

theorem listed_lookup (base n : ℕ) (f : ℕ → List ℕ) (i : ℕ) :
    (listed base n f).lookup (base+i) = if i < n ∧ f i ≠ [] then some (f i) else none := by
  induction n with
  | zero => rw [if_neg (fun h => Nat.not_lt_zero i h.1)]; rfl
  | succ n ih =>
    rw [listed_succ, List.lookup_append, ih]
    by_cases hi : i = n
    · subst hi
      rw [if_neg (fun h => Nat.lt_irrefl i h.1), Option.none_or]
      by_cases hf : f i ≠ []
      · rw [if_pos hf, if_pos ⟨Nat.lt_succ_self i, hf⟩, List.lookup_cons_self]
      · rw [if_neg hf, if_neg (fun h => hf h.2), List.lookup_nil]
    · have hlast : (if f n ≠ [] then [(base+n, f n)] else []).lookup (base+i) = none := by
        split
        · rw [List.lookup_cons, beq_eq_false_iff_ne.mpr (by omega), List.lookup_nil]
        · rfl
      rw [hlast, Option.or_none]
      exact if_congr ⟨fun h => ⟨by omega, h.2⟩, fun h => ⟨by omega, h.2⟩⟩ rfl rfl

theorem listed_getD (base n : ℕ) (f : ℕ → List ℕ) (i : ℕ) (hi : i < n) :
    ((listed base n f).lookup (base+i)).getD [] = f i := by
  rw [listed_lookup]
  by_cases hf : f i = []
  · rw [if_neg (fun h => h.2 hf), hf, Option.getD_none]
  · rw [if_pos ⟨hi, hf⟩, Option.getD_some]

theorem seen_word (w : WordEntry) (hlen : w.readingIdxs.length = w.charIds.length) :
    seenWord w.stored = wordOut w := by
  by_cases ho : hasOverrides w
  · simp only [seenWord, WordEntry.stored, if_pos ho, Option.getD_some, wordOut]
  · have hzero := no_overrides w hlen ho
    simp only [seenWord, WordEntry.stored, if_neg ho, Option.getD_none, wordOut]
    rw [← hzero]

theorem stored_word (raw : List RawEntry) (wid : ℕ) :
    (((dictWords raw)[wid]?).map WordEntry.stored).map seenWord =
      ((dictWords raw)[wid]?).map wordOut := by
  rw [Option.map_map]
  refine Option.map_congr (fun w hw => ?_)
  exact seen_word w (dict_words_ok raw w (List.mem_of_getElem? hw)).idxs

theorem seen_reading (r : Reading) (hr : ReadingOk r) : seenReading r.stored = readingOut r := by
  rw [readingOut, ← unpack_stored r hr]
  rfl

theorem agrees_of_built {raw : List RawEntry} {t : CompositionSearcher} {d : MiedV4}
    {prefixes : List ℕ} (hd : Verified raw d)
    (ht : Decodes (buildCharTableV4 raw) (dictGroups raw) prefixes t) : Agrees t d where
  chars cid row hrow := by
    rw [hd.chars, List.getElem?_map, Option.map_eq_some_iff] at hrow
    obtain ⟨p, hp, rfl⟩ := hrow
    obtain ⟨hlt, rfl⟩ := List.getElem?_eq_some_iff.mp hp
    refine ⟨?_, fun idx => ?_⟩
    · rw [(ht.charData cid hlt).1, charOut, List.flatMap_singleton]
    · rw [ht.reading cid hlt, charOut, List.getElem?_map, Option.map_map]
      refine Option.map_congr (fun r hr => seen_reading r ?_)
      exact (char_table_ok raw _ (List.getElem_mem hlt)).reading r (List.mem_of_getElem? hr)
  words wid := by
    rw [ht.word, hd.words, List.getElem?_map]
    exact stored_word raw wid
  firstChar cid hcid := by
    rw [hd.counts.1] at hcid
    have hlookup := listed_getD 0 (buildCharTableV4 raw).length
      (wordsByFirstChar (dictWords raw)) cid hcid
    rw [Nat.zero_add] at hlookup
    rw [hd.firstChar, hlookup]
    exact ht.wordsFrom cid hcid
  keys slot hslot := by
    rw [hd.keys, listed_getD keyMin numSlots _ slot hslot]
    exact ht.charsFrom slot hslot

/-- Every dictionary that the builder writes is read back by the verifier, and the searcher
of the device sees in it what the verifier sees. -/
theorem verifier_agrees (raw : List RawEntry) (enDat enVal blob : Bytes)
    (h : buildMiedV4 raw enDat enVal = some blob) (t₀ : CompositionSearcher) :
    ∃ t d, t₀.loadFromMemory (some blob) = (t, true) ∧ readV4 blob = some d ∧
      d.totalBytes = blob.length ∧ Verified raw d ∧ Agrees t d := by
  obtain ⟨d, hread, hd, hsize⟩ := read_back raw enDat enVal blob h
  obtain ⟨t, hload, ht, -⟩ := build_decodes raw enDat enVal blob h t₀
  exact ⟨t, d, hload, hread, hsize, hd, agrees_of_built hd ht⟩

/-- 行 with its two readings, and 八行, in which 行 has its second reading. -/
def verifiedEntries : List RawEntry :=
  [⟨['行'], 90, ['ㄒ', 'ㄧ', 'ㄥ', 'ˊ']⟩, ⟨['行'], 40, ['ㄏ', 'ㄤ', 'ˊ']⟩,
    ⟨['八', '行'], 50, ['ㄅ', 'ㄚ', ' ', 'ㄏ', 'ㄤ', 'ˊ']⟩]

theorem verified_file_agrees : ∃ blob t d, buildMiedV4 verifiedEntries [] [0x49] = some blob ∧
    CompositionSearcher.init.loadFromMemory (some blob) = (t, true) ∧ readV4 blob = some d ∧
    Verified verifiedEntries d ∧ Agrees t d := by
  have hsome : (buildMiedV4 verifiedEntries [] [0x49]).isSome = true := by decide +kernel
  obtain ⟨blob, hblob⟩ := Option.isSome_iff_exists.mp hsome
  obtain ⟨t, d, hload, hread, -, hd, ha⟩ :=
    verifier_agrees verifiedEntries [] [0x49] blob hblob .init
  exact ⟨blob, t, d, hblob, hload, hread, hd, ha⟩

end MokyaLora.VerifyMied
