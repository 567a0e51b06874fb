import MokyaLora.DictFormat
import MokyaLora.DictWellFormed
import MokyaLora.CompositionSearcher

/-!
# Reading a dictionary gives the tables it was built from
-/

set_option autoImplicit false

namespace MokyaLora.GenDict
open Lib.Fields Lib.Buckets

section Pack

theorem pack_b (n : ℕ) (b : Bytes) (h : packB n = some b) : b = [UInt8.ofNat n] ∧ n < 256 := by
  unfold packB at h
  split at h
  · exact ⟨(Option.some.inj h).symm, ‹_›⟩
  · cases h

theorem pack_h (n : ℤ) (b : Bytes) (h : packH n = some b) :
    b = le16 n.toNat ∧ 0 ≤ n ∧ n < 65536 := by
  unfold packH at h
  split at h
  · exact ⟨(Option.some.inj h).symm, ‹_›⟩
  · cases h

theorem pack_hs (ns : List ℕ) (b : Bytes) (h : packHs ns = some b) :
    b = ns.flatMap le16 ∧ ∀ n ∈ ns, n < 65536 := by
  unfold packHs at h
  split at h
  · exact ⟨(Option.some.inj h).symm, ‹_›⟩
  · cases h

theorem pack_i (ns : List ℕ) (b : Bytes) (h : packI ns = some b) :
    b = ns.flatMap le32 ∧ ∀ n ∈ ns, n < 4294967296 := by
  unfold packI at h
  split at h
  · exact ⟨(Option.some.inj h).symm, ‹_›⟩
  · cases h

theorem pack_q (ns : List ℕ) (b : Bytes) (h : packQ ns = some b) :
    b = ns.flatMap le64 ∧ ∀ n ∈ ns, n < 18446744073709551616 := by
  unfold packQ at h
  split at h
  · exact ⟨(Option.some.inj h).symm, ‹_›⟩
  · cases h

theorem map_m_some {α β : Type} (f : α → Option β) (g : α → β) (fits : α → Prop)
    (hf : ∀ a b, f a = some b → b = g a ∧ fits a) (as : List α) (bs : List β)
    (h : as.mapM f = some bs) : bs = as.map g ∧ ∀ a ∈ as, fits a := by
  induction as generalizing bs with
  | nil =>
    rw [List.mapM_nil] at h
    cases h
    exact ⟨rfl, by simp⟩
  | cons a as ih =>
    rw [List.mapM_cons] at h
    obtain ⟨b, hb, h⟩ := Option.bind_eq_some_iff.mp h
    obtain ⟨bs', hbs, h⟩ := Option.bind_eq_some_iff.mp h
    cases h
    obtain ⟨rfl, ha⟩ := hf a b hb
    obtain ⟨rfl, has⟩ := ih bs' hbs
    exact ⟨rfl, by simpa using ⟨ha, has⟩⟩

end Pack

def readingBytes (r : Reading) : Bytes :=
  UInt8.ofNat r.keyseq.length::(r.keyseq++(UInt8.ofNat (packPhonemePos r.pos)::
    UInt8.ofNat r.tone::le16 (min r.freq 0xFFFF)))

structure ReadingFits (r : Reading) : Prop where
  klen : r.keyseq.length < 256
  pos : packPhonemePos r.pos < 256
  tone : r.tone < 256

/-- A reading as the searcher sees it: the frequency is clamped. -/
def Reading.stored (r : Reading) : ReadingView :=
  ⟨r.keyseq, packPhonemePos r.pos, r.tone, min r.freq 0xFFFF⟩

theorem reading_record (r : Reading) (b : Bytes) (h : readingRecord r = some b) :
    b = readingBytes r ∧ ReadingFits r := by
  simp only [readingRecord, Option.bind_eq_bind, Option.bind_eq_some_iff, Option.pure_def,
    Option.some.injEq] at h
  obtain ⟨klen, hk, pos, hp, tone, ht, freq, hf, rfl⟩ := h
  obtain ⟨rfl, hklen⟩ := pack_b _ _ hk
  obtain ⟨rfl, hpos⟩ := pack_b _ _ hp
  obtain ⟨rfl, htone⟩ := pack_b _ _ ht
  obtain ⟨rfl, -, -⟩ := pack_h _ _ hf
  refine ⟨?_, hklen, hpos, htone⟩
  have hfreq : (min (r.freq : ℤ) 0xFFFF).toNat = min r.freq 0xFFFF := by omega
  simp [readingBytes, hfreq]

def charBytes (p : Char × List Reading) : Bytes :=
  UInt8.ofNat (Ime.utf8 p.1).length::(Ime.utf8 p.1++(UInt8.ofNat p.2.length::
    p.2.flatMap readingBytes))

structure CharFits (p : Char × List Reading) : Prop where
  ulen : (Ime.utf8 p.1).length < 256
  count : p.2.length < 256
  readings : ∀ r ∈ p.2, ReadingFits r

theorem char_record (p : Char × List Reading) (b : Bytes) (h : charRecord p = some b) :
    b = charBytes p ∧ CharFits p := by
  simp only [charRecord, Option.bind_eq_bind, Option.bind_eq_some_iff, Option.pure_def,
    Option.some.injEq] at h
  obtain ⟨ulen, hu, count, hc, readings, hr, rfl⟩ := h
  obtain ⟨rfl, hulen⟩ := pack_b _ _ hu
  obtain ⟨rfl, hcount⟩ := pack_b _ _ hc
  obtain ⟨rfl, hfits⟩ := map_m_some _ readingBytes ReadingFits reading_record _ _ hr
  exact ⟨by simp [charBytes, List.flatMap_def], hulen, hcount, hfits⟩

def wordFlags (w : WordEntry) : ℕ := if hasOverrides w then 1 else 0

def overrides (w : WordEntry) : List ℕ := if hasOverrides w then w.readingIdxs else []

def wordBytes (w : WordEntry) : Bytes :=
  UInt8.ofNat w.charIds.length::UInt8.ofNat (wordFlags w)::(le16 (min w.freq 0xFFFF).toNat++
    (w.charIds.flatMap le16++(overrides w).map UInt8.ofNat))

structure WordFits (w : WordEntry) : Prop where
  count : w.charIds.length < 256
  freq : 0 ≤ w.freq
  ids : ∀ cid ∈ w.charIds, cid < 65536
  idxs : ∀ i ∈ overrides w, i < 256

def WordEntry.stored (w : WordEntry) : WordView :=
  ⟨w.charIds.length, wordFlags w, (min w.freq 0xFFFF).toNat, w.charIds,
    if hasOverrides w then some w.readingIdxs else none⟩

theorem pack_overrides (w : WordEntry) (bs : List Bytes) (h : packOverrides w = some bs) :
    bs.flatten = (overrides w).map UInt8.ofNat ∧ ∀ i ∈ overrides w, i < 256 := by
  unfold packOverrides at h
  unfold overrides
  split at h
  · rename_i ho
    obtain ⟨rfl, hfits⟩ := map_m_some _ (fun n => [UInt8.ofNat n]) (fun n => n < 256) pack_b _ _ h
    rw [if_pos ho]
    exact ⟨by rw [← List.flatMap_def, ← List.map_eq_flatMap], hfits⟩
  · rename_i ho
    cases h
    rw [if_neg ho]
    exact ⟨rfl, by simp⟩

theorem word_record (w : WordEntry) (b : Bytes) (h : wordRecord w = some b) :
    b = wordBytes w ∧ WordFits w := by
  simp only [wordRecord, Option.bind_eq_bind, Option.bind_eq_some_iff, Option.pure_def,
    Option.some.injEq] at h
  obtain ⟨count, hc, flags, hfl, freq, hf, ids, hi, idxs, hx, rfl⟩ := h
  obtain ⟨rfl, hcount⟩ := pack_b _ _ hc
  obtain ⟨rfl, -⟩ := pack_b _ _ hfl
  obtain ⟨rfl, hfreq, -⟩ := pack_h _ _ hf
  obtain ⟨rfl, hids⟩ := pack_hs _ _ hi
  obtain ⟨hidx, hfits⟩ := pack_overrides w idxs hx
  exact ⟨by simp [wordBytes, wordFlags, hidx], hcount, by omega, hids, hfits⟩

section Decode

variable (t : CompositionSearcher)

theorem reading_at (ht : t.hasPhonemePos = true) (p : ℕ) (r : Reading) (hr : ReadingFits r)
    (h : At t.buf p (readingBytes r)) :
    t.readingAt p = (r.stored, p+(readingBytes r).length) := by
  have hlen : (readingBytes r).length = r.keyseq.length+5 := by
    simp [readingBytes]
  rw [hlen]
  obtain ⟨hklen, h⟩ := (at_cons _ _ _ _).mp h
  obtain ⟨hkeys, h⟩ := (at_append _ _ _ _).mp h
  obtain ⟨hpos, h⟩ := (at_cons _ _ _ _).mp h
  obtain ⟨htone, hfreq⟩ := (at_cons _ _ _ _).mp h
  have hk := byte_at hr.klen hklen
  simp only [CompositionSearcher.readingAt, hk, ht, if_true, Reading.stored]
  rw [hkeys.slice_eq, byte_at hr.pos hpos, byte_at hr.tone htone,
    load16_at (by omega) hfreq]
  simp only [Prod.mk.injEq, true_and]
  omega

theorem readings_at (ht : t.hasPhonemePos = true) (rs : List Reading) (p : ℕ)
    (hr : ∀ r ∈ rs, ReadingFits r) (h : At t.buf p (rs.flatMap readingBytes)) :
    t.readings rs.length p = rs.map Reading.stored := by
  induction rs generalizing p with
  | nil => rfl
  | cons r rs ih =>
    rw [List.flatMap_cons, at_append] at h
    have hfirst := reading_at t ht p r (hr r (by simp)) h.1
    rw [List.length_cons, CompositionSearcher.readings, hfirst, List.map_cons]
    exact congrArg _ (ih _ (fun r hmem => hr r (by simp [hmem])) h.2)

theorem char_data_at (ht : t.hasPhonemePos = true) (cid : ℕ) (p : Char × List Reading)
    (hp : CharFits p)
    (h : At t.buf (t.charTable+load32 t.buf (t.charOffsets+4*cid)) (charBytes p)) :
    (t.charDataAt cid).1 = Ime.utf8 p.1 ∧ (t.charDataAt cid).2.1 = p.2.length ∧
      t.charReadings cid = p.2.map Reading.stored := by
  obtain ⟨hlen, h⟩ := (at_cons _ _ _ _).mp h
  obtain ⟨hutf8, h⟩ := (at_append _ _ _ _).mp h
  obtain ⟨hcount, hreadings⟩ := (at_cons _ _ _ _).mp h
  have hu := byte_at hp.ulen hlen
  have hc := byte_at hp.count hcount
  have hdata : t.charDataAt cid = (Ime.utf8 p.1, p.2.length,
      t.charTable+load32 t.buf (t.charOffsets+4*cid)+2+(Ime.utf8 p.1).length) := by
    simp only [CompositionSearcher.charDataAt, hu, hc, hutf8.slice_eq]
  refine ⟨by rw [hdata], by rw [hdata], ?_⟩
  rw [CompositionSearcher.charReadings, hdata]
  apply readings_at t ht p.2 _ hp.readings
  convert hreadings using 1
  omega

theorem load_array {b : Bytes} {off : ℕ} (ns : List ℕ) (load : Bytes → ℕ → ℕ) (w : ℕ)
    (h : ∀ i, ∀ hi : i < ns.length, load b (off+w*i) = ns[i]) :
    CompositionSearcher.loadArray load w b off ns.length = ns := by
  apply List.ext_getElem
  · simp [CompositionSearcher.loadArray]
  · intro i _ hi
    simp only [CompositionSearcher.loadArray, List.getElem_map, List.getElem_range]
    exact h i hi

theorem get_word_at (wid : ℕ) (w : WordEntry) (hw : WordFits w)
    (hlen : w.readingIdxs.length = w.charIds.length) (hwid : wid < t.wordCount)
    (h : At t.buf (t.wordTable+load32 t.buf (t.wordOffsets+4*wid)) (wordBytes w)) :
    t.getWord wid = some w.stored := by
  obtain ⟨hcount, h⟩ := (at_cons _ _ _ _).mp h
  obtain ⟨hflags, h⟩ := (at_cons _ _ _ _).mp h
  obtain ⟨hfreq, h⟩ := (at_append _ _ _ _).mp h
  obtain ⟨hids, hidxs⟩ := (at_append _ _ _ _).mp h
  rw [flatMap_le16_length, ← hlen] at hidxs
  have hflag : wordFlags w < 256 := by
    unfold wordFlags
    split <;> decide
  have hc := byte_at hw.count hcount
  have hf := byte_at hflag hflags
  have hq := load16_at (by have := hw.freq; omega) hfreq
  have hi := load_array w.charIds load16 2 (load16_array hids hw.ids)
  simp only [CompositionSearcher.getWord, if_neg (not_le.mpr hwid), hc, hf, hq]
  simp only [WordEntry.stored, Option.some.injEq, WordView.mk.injEq, true_and]
  refine ⟨hi, ?_⟩
  by_cases ho : hasOverrides w
  · have hidx : overrides w = w.readingIdxs := by rw [overrides, if_pos ho]
    rw [hidx] at hidxs
    rw [wordFlags, if_pos ho, if_pos ho, if_pos rfl, ← hlen]
    exact congrArg some (load_array w.readingIdxs byteAt 1
      (byte_array hidxs (fun n hn => hw.idxs n (hidx ▸ hn))))
  · rw [wordFlags, if_neg ho, if_neg ho, if_neg (by decide)]

theorem index_at {b : Bytes} {off : ℕ} (buckets : List (List ℕ)) (ids : Bytes)
    (h : At b off ((starts 0 buckets).flatMap le32++ids))
    (hs : ∀ n ∈ starts 0 buckets, n < 4294967296) :
    (∀ k ≤ buckets.length, load32 b (off+4*k) = start buckets k) ∧
      At b (off+4*(buckets.length+1)) ids := by
  obtain ⟨hstarts, hids⟩ := (at_append _ _ _ _).mp h
  rw [flatMap_le32_length, starts_length] at hids
  refine ⟨fun k hk => ?_, hids⟩
  rw [load32_array hstarts hs k (by rw [starts_length]; omega), starts_getElem, Nat.zero_add]

theorem chars_from_at (buckets : List (List ℕ)) (hlen : buckets.length = numSlots)
    (h : At t.buf t.keyToCharIdx ((starts 0 buckets).flatMap le32++buckets.flatten.flatMap le16))
    (hs : ∀ n ∈ starts 0 buckets, n < 4294967296) (hids : ∀ n ∈ buckets.flatten, n < 65536)
    (hbuf : t.buf.length < 4294967296) (slot : ℕ) (hslot : slot < numSlots) :
    t.charsFrom (UInt8.ofNat (keyMin+slot)) = buckets.getD slot [] := by
  have hk : slot < buckets.length := hlen ▸ hslot
  obtain ⟨hstart, hat⟩ := index_at buckets _ h hs
  have hbyte : (UInt8.ofNat (keyMin+slot)).toNat-CompositionSearcher.kKeyByteMin.toNat = slot := by
    have hmin : CompositionSearcher.kKeyByteMin.toNat = 32 := rfl
    rw [UInt8.toNat_ofNat', hmin]
    simp only [keyMin, numSlots] at *
    omega
  unfold CompositionSearcher.charsFrom
  dsimp only
  rw [hbyte, hstart slot (by omega), hstart (slot+1) hk]
  rw [List.getD_eq_getElem?_getD, List.getElem?_eq_getElem hk, Option.getD_some]
  apply bucket_map
  intro i hi
  have hfits := hat.fits (by
    rw [← List.length_pos_iff, flatMap_le16_length]
    omega)
  rw [flatMap_le16_length] at hfits
  rw [u32, Nat.mod_eq_of_lt (by omega)]
  rw [hlen] at hat
  exact load16_array hat hids i hi

theorem words_from_at (buckets : List (List ℕ)) (hlen : buckets.length = t.charCount)
    (h : At t.buf t.firstCharIdx ((starts 0 buckets).flatMap le32++buckets.flatten.flatMap le32))
    (hs : ∀ n ∈ starts 0 buckets, n < 4294967296) (hids : ∀ n ∈ buckets.flatten, n < 4294967296)
    (hbuf : t.buf.length < 4294967296) (cid : ℕ) (hcid : cid < t.charCount) :
    t.wordsFrom cid = buckets.getD cid [] := by
  have hk : cid < buckets.length := hlen ▸ hcid
  obtain ⟨hstart, hat⟩ := index_at buckets _ h hs
  unfold CompositionSearcher.wordsFrom
  dsimp only
  rw [hstart cid (by omega), hstart (cid+1) hk]
  rw [List.getD_eq_getElem?_getD, List.getElem?_eq_getElem hk, Option.getD_some]
  apply bucket_map
  intro i hi
  have hfits := hat.fits (by
    rw [← List.length_pos_iff, flatMap_le32_length]
    omega)
  rw [flatMap_le32_length] at hfits
  simp only [u32]
  rw [Nat.mod_eq_of_lt (show t.charCount+1 < 4294967296 by omega),
    Nat.mod_eq_of_lt (show 4*(t.charCount+1) < 4294967296 by omega),
    Nat.mod_eq_of_lt (show 4*i < 4294967296 by omega)]
  rw [hlen] at hat
  exact load32_array hat hids i hi

end Decode

/-- What the sections of an accepted build are. -/
structure Built (raw : List RawEntry) (s : Sections) : Prop where
  chars : s.chars = (buildCharTableV4 raw).flatMap charBytes
  charFits : ∀ p ∈ buildCharTableV4 raw, CharFits p
  words : s.words = (groupHeaders (dictGroups raw)).flatMap le32++(dictWords raw).flatMap wordBytes
  groupFits : ∀ n ∈ groupHeaders (dictGroups raw), n < 4294967296
  wordFits : ∀ w ∈ dictWords raw, WordFits w
  firstIdx : s.firstIdx =
    (starts 0 (firstCharBuckets (dictWords raw) (buildCharTableV4 raw).length)).flatMap le32++
      (firstCharBuckets (dictWords raw) (buildCharTableV4 raw).length).flatten.flatMap le32
  firstFits : (∀ n ∈ starts 0 (firstCharBuckets (dictWords raw) (buildCharTableV4 raw).length),
      n < 4294967296) ∧
    ∀ n ∈ (firstCharBuckets (dictWords raw) (buildCharTableV4 raw).length).flatten, n < 4294967296
  keyIdx : s.keyIdx = (starts 0 (keyBuckets (buildCharTableV4 raw))).flatMap le32++
    (keyBuckets (buildCharTableV4 raw)).flatten.flatMap le16
  keyFits : (∀ n ∈ starts 0 (keyBuckets (buildCharTableV4 raw)), n < 4294967296) ∧
    ∀ n ∈ (keyBuckets (buildCharTableV4 raw)).flatten, n < 65536
  charOffsets : s.charOffsets = (starts 0 ((buildCharTableV4 raw).map charBytes)).flatMap le32
  charOffsetFits : ∀ n ∈ starts 0 ((buildCharTableV4 raw).map charBytes), n < 4294967296
  wordOffsets : s.wordOffsets =
    (starts groupHeadersSize ((dictWords raw).map wordBytes)).flatMap le32
  wordOffsetFits : ∀ n ∈ starts groupHeadersSize ((dictWords raw).map wordBytes), n < 4294967296
  prefixes : s.prefixes = le32 (syllablePrefixes raw (buildCharTableV4 raw)).length++
    (syllablePrefixes raw (buildCharTableV4 raw)).flatMap le64
  prefixFits : (syllablePrefixes raw (buildCharTableV4 raw)).length < 4294967296 ∧
    ∀ n ∈ syllablePrefixes raw (buildCharTableV4 raw), n < 18446744073709551616
  fieldFits : ∀ n ∈ s.headerFields (buildCharTableV4 raw).length (dictWords raw).length,
    n < 4294967296

def headerBytes (raw : List RawEntry) (s : Sections) : Bytes :=
  magicV4++([4, 0, 1, 0]++
    (s.headerFields (buildCharTableV4 raw).length (dictWords raw).length).flatMap le32)

theorem serialize_index (pack : List ℕ → Option Bytes) (bytes : List ℕ → Bytes)
    (fits : List ℕ → Prop) (hpack : ∀ ns b, pack ns = some b → b = bytes ns ∧ fits ns)
    (buckets : List (List ℕ)) (b : Bytes) (h : serializeIndex pack buckets = some b) :
    b = (starts 0 buckets).flatMap le32++bytes buckets.flatten ∧
      (∀ n ∈ starts 0 buckets, n < 4294967296) ∧ fits buckets.flatten := by
  simp only [serializeIndex, Option.bind_eq_bind, Option.bind_eq_some_iff, Option.pure_def,
    Option.some.injEq] at h
  obtain ⟨offsets, ho, ids, hi, rfl⟩ := h
  obtain ⟨rfl, hofits⟩ := pack_i _ _ ho
  obtain ⟨rfl, hifits⟩ := hpack _ _ hi
  exact ⟨rfl, hofits, hifits⟩

theorem build_layout (raw : List RawEntry) (enDat enVal blob : Bytes)
    (h : buildMiedV4 raw enDat enVal = some blob) :
    ∃ s : Sections, Built raw s ∧ (s.enDat = enDat ∧ s.enVal = enVal) ∧
      blob = headerBytes raw s++s.body := by
  simp only [buildMiedV4, Option.bind_eq_bind, Option.bind_eq_some_iff, Option.pure_def,
    Option.some.injEq] at h
  obtain ⟨chars, hchars, ⟨headers, records⟩, hwords, firstIdx, hfirst, keyIdx, hkey, charOffsets,
    hcharOffs, wordOffsets, hwordOffs, prefixes, hprefixes, version, hversion, fields, hfields,
    rfl⟩ := h
  obtain ⟨rfl, hcharFits⟩ := map_m_some _ charBytes CharFits char_record _ _ hchars
  simp only [serializeWordTableV4, Option.bind_eq_bind, Option.bind_eq_some_iff, Option.pure_def,
    Option.some.injEq, Prod.mk.injEq] at hwords
  obtain ⟨_, hheaders, _, hrecords, rfl, rfl⟩ := hwords
  obtain ⟨rfl, hgroupFits⟩ := pack_i _ _ hheaders
  obtain ⟨rfl, hwordFits⟩ := map_m_some _ wordBytes WordFits word_record _ _ hrecords
  obtain ⟨rfl, hfirstFits⟩ := serialize_index packI _ _ pack_i _ _ hfirst
  obtain ⟨rfl, hkeyFits⟩ := serialize_index packHs _ _ pack_hs _ _ hkey
  obtain ⟨rfl, hcharOffFits⟩ := pack_i _ _ hcharOffs
  obtain ⟨rfl, hwordOffFits⟩ := pack_i _ _ hwordOffs
  simp only [serializeSyllablePrefixTableV4, Option.bind_eq_bind, Option.bind_eq_some_iff,
    Option.pure_def, Option.some.injEq] at hprefixes
  obtain ⟨_, hcount, _, hentries, rfl⟩ := hprefixes
  obtain ⟨rfl, hcountFits⟩ := pack_i _ _ hcount
  obtain ⟨rfl, hentryFits⟩ := pack_q _ _ hentries
  obtain ⟨rfl, -⟩ := pack_hs _ _ hversion
  obtain ⟨rfl, hfieldFits⟩ := pack_i _ _ hfields
  refine ⟨_, ⟨?_, hcharFits, ?_, hgroupFits, hwordFits, rfl, hfirstFits, rfl, hkeyFits, rfl,
    hcharOffFits, rfl, hwordOffFits, ?_, ⟨?_, hentryFits⟩, hfieldFits⟩, ⟨rfl, rfl⟩, ?_⟩
  · rfl
  · rfl
  · simp
  · simpa using hcountFits
  · simp only [headerBytes, List.append_assoc]
    rfl

theorem header_length (raw : List RawEntry) (s : Sections) : (headerBytes raw s).length = 64 := by
  rw [headerBytes, List.length_append, List.length_append, flatMap_le32_length]
  rfl

theorem blob_length (raw : List RawEntry) (s : Sections) :
    (headerBytes raw s++s.body).length = s.totalSize := by
  rw [List.length_append, header_length]
  simp only [Sections.body, Sections.totalSize, Sections.zhEnd, Sections.prefixOff,
    Sections.wordOffsOff, Sections.charOffsOff, Sections.keyOff, Sections.firstOff,
    Sections.wordOff, Sections.charOff, headerSize, List.length_append]
  omega

structure SectionsAt (b : Bytes) (s : Sections) : Prop where
  chars : At b Sections.charOff s.chars
  words : At b s.wordOff s.words
  firstIdx : At b s.firstOff s.firstIdx
  keyIdx : At b s.keyOff s.keyIdx
  charOffsets : At b s.charOffsOff s.charOffsets
  wordOffsets : At b s.wordOffsOff s.wordOffsets
  prefixes : At b s.prefixOff s.prefixes

theorem sections_at (raw : List RawEntry) (s : Sections) :
    SectionsAt (headerBytes raw s++s.body) s := by
  have h : At (headerBytes raw s++s.body) 64 s.body := by
    have := at_append_left (headerBytes raw s) s.body s.body 0 (at_zero _)
    rwa [header_length] at this
  obtain ⟨hchars, h⟩ := (at_append _ _ _ _).mp h
  obtain ⟨hwords, h⟩ := (at_append _ _ _ _).mp h
  obtain ⟨hfirst, h⟩ := (at_append _ _ _ _).mp h
  obtain ⟨hkey, h⟩ := (at_append _ _ _ _).mp h
  obtain ⟨hcharOffs, h⟩ := (at_append _ _ _ _).mp h
  obtain ⟨hwordOffs, h⟩ := (at_append _ _ _ _).mp h
  obtain ⟨hprefixes, -⟩ := (at_append _ _ _ _).mp h
  exact ⟨hchars, hwords, hfirst, hkey, hcharOffs, hwordOffs, hprefixes⟩

theorem header_at (raw : List RawEntry) (s : Sections) (body : Bytes) (hb : Built raw s) :
    slice (headerBytes raw s++body) 0 4 = magicV4 ∧ load16 (headerBytes raw s++body) 4 = 4 ∧
    load16 (headerBytes raw s++body) 6 = 1 ∧
    ∀ i, ∀ hi : i < (s.headerFields (buildCharTableV4 raw).length (dictWords raw).length).length,
      load32 (headerBytes raw s++body) (8+4*i) =
        (s.headerFields (buildCharTableV4 raw).length (dictWords raw).length)[i] := by
  have h := at_zero (headerBytes raw s++body)
  conv at h => arg 3; rw [headerBytes, List.append_assoc, List.append_assoc]
  obtain ⟨hmagic, h⟩ := (at_append _ _ _ _).mp h
  obtain ⟨hversion, h⟩ := (at_append _ _ _ _).mp h
  obtain ⟨hfields, -⟩ := (at_append _ _ _ _).mp h
  have hv : At (headerBytes raw s++body) 4 ([4, 1].flatMap le16) := hversion
  refine ⟨hmagic.slice_eq, ?_, ?_, fun i hi => load32_array hfields hb.fieldFits i hi⟩
  · exact load16_array hv (by decide) 0 (by decide)
  · exact load16_array hv (by decide) 1 (by decide)

structure Mapped (buf : Bytes) (prefixes : List ℕ) (t : CompositionSearcher) : Prop where
  file : t.buf = buf
  loaded : t.loaded = true
  pos : t.hasPhonemePos = (load16 buf 6 % 2 == 1)
  charCount : t.charCount = load32 buf 8
  wordCount : t.wordCount = load32 buf 12
  charTable : t.charTable = load32 buf 16
  wordTable : t.wordTable = load32 buf 20
  firstCharIdx : t.firstCharIdx = load32 buf 24
  keyToCharIdx : t.keyToCharIdx = load32 buf 28
  charOffsets : t.charOffsets = load32 buf 0x24
  wordOffsets : t.wordOffsets = load32 buf 0x28
  prefixTable : t.prefixTable = prefixes
  groups : t.groups = (List.range 8).map (fun g =>
    (load32 buf (load32 buf 20+8*g), load32 buf (load32 buf 20+8*g+4)))

theorem load_mapped (t₀ : CompositionSearcher) (buf : Bytes) (prefixes : List ℕ)
    (hsize : 0x30 ≤ buf.length) (hmagic : slice buf 0 4 = magicV4) (hversion : load16 buf 4 = 4)
    (hoffs : ∀ off ∈ [load32 buf 16, load32 buf 20, load32 buf 24, load32 buf 28,
      load32 buf 0x24, load32 buf 0x28], off < buf.length)
    (hprefixes : CompositionSearcher.prefixTableAt buf (load32 buf 0x2C) = some prefixes) :
    ∃ t, t₀.loadFromMemory (some buf) = (t, true) ∧ Mapped buf prefixes t := by
  have hno : ¬ ∃ off ∈ [load32 buf 16, load32 buf 20, load32 buf 24, load32 buf 28,
      load32 buf 0x24, load32 buf 0x28], buf.length ≤ off := by
    rintro ⟨off, hmem, hle⟩
    exact absurd (hoffs off hmem) (not_lt.mpr hle)
  simp only [CompositionSearcher.loadFromMemory, CompositionSearcher.kHeaderSize,
    if_neg (not_lt.mpr hsize), CompositionSearcher.parseHeader]
  rw [if_neg (not_not.mpr (show slice buf 0 4 = CompositionSearcher.kMagic from hmagic)),
    if_neg (not_not.mpr (show load16 buf 4 = CompositionSearcher.kVersion from hversion)),
    if_neg hno]
  refine ⟨_, rfl, rfl, rfl, rfl, rfl, rfl, rfl, rfl, rfl, rfl, rfl, rfl, ?_, rfl⟩
  simp only [hprefixes, Option.getD_some]

/-- The accessors return the data of the tables: strings, readings, words, the
ranges of the groups, the two indexes and the prefixes. -/
structure Decodes (table : CharTable) (groups : List (List WordEntry)) (prefixes : List ℕ)
    (t : CompositionSearcher) : Prop where
  loaded : t.loaded = true
  hasPhonemePos : t.hasPhonemePos = true
  charCount : t.charCount = table.length
  wordCount : t.wordCount = groups.flatten.length
  charData : ∀ cid, ∀ h : cid < table.length,
    (t.charDataAt cid).1 = Ime.utf8 table[cid].1 ∧ (t.charDataAt cid).2.1 = table[cid].2.length
  reading : ∀ cid, ∀ h : cid < table.length, ∀ idx,
    t.getReading cid idx = (table[cid].2[idx]?).map Reading.stored
  word : ∀ wid, t.getWord wid = (groups.flatten[wid]?).map WordEntry.stored
  groupHeader : ∀ g < maxGroup,
    t.groups.getD g (0, 0) = ((groups.getD g []).length, start groups g)
  wordsFrom : ∀ cid < table.length, t.wordsFrom cid = wordsByFirstChar groups.flatten cid
  charsFrom : ∀ slot < numSlots, t.charsFrom (UInt8.ofNat (keyMin+slot)) = charsByKey table slot
  prefixTable : t.prefixTable = prefixes

section Read

variable {raw : List RawEntry} {s : Sections} {b : Bytes} {t : CompositionSearcher}

theorem prefixes_at (hb : Built raw s) (hs : At b s.prefixOff s.prefixes) (hne : s.prefixOff ≠ 0)
    (hlen : b.length < 4294967296) :
    CompositionSearcher.prefixTableAt b s.prefixOff =
      some (syllablePrefixes raw (buildCharTableV4 raw)) := by
  have hfits := hs.fits (by rw [hb.prefixes]; exact List.cons_ne_nil _ _)
  rw [hb.prefixes] at hs hfits
  obtain ⟨hcount, hentries⟩ := (at_append _ _ _ _).mp hs
  have hc := load32_at hb.prefixFits.1 hcount
  rw [List.length_append, List.flatMap_def, flatten_const _ 8 (by simp), List.length_map,
    le32_length] at hfits
  rw [CompositionSearcher.prefixTableAt, hc, u32, Nat.mod_eq_of_lt (by omega),
    if_pos ⟨hne, by omega⟩, if_pos (by omega)]
  exact congrArg some (load_array _ load64 8 (load64_array hentries hb.prefixFits.2))

theorem group_headers_at (groups : List (List WordEntry)) (g : ℕ) (hg : g < maxGroup) (off : ℕ)
    (h : At b off ((groupHeaders groups).flatMap le32))
    (hn : ∀ n ∈ groupHeaders groups, n < 4294967296) :
    load32 b (off+8*g) = (groups.getD g []).length ∧ load32 b (off+8*g+4) = start groups g := by
  rw [groupHeaders, List.flatMap_assoc] at h
  have hat := at_array _ 8 (fun _ => rfl) h g (by rwa [List.length_range])
  rw [List.getElem_range] at hat
  have hfits : ∀ n ∈ [(groups.getD g []).length, start groups g], n < 4294967296 :=
    fun n hmem => hn n (List.mem_flatMap.mpr ⟨g, List.mem_range.mpr hg, hmem⟩)
  exact ⟨load32_array hat hfits 0 (by simp), load32_array hat hfits 1 (by simp)⟩

theorem record_at {α : Type} (f : α → Bytes) (as : List α) (off base o cid : ℕ)
    (h : At b base (as.flatMap f)) (ho : At b off ((starts o (as.map f)).flatMap le32))
    (hn : ∀ n ∈ starts o (as.map f), n < 4294967296) (hcid : cid < as.length) :
    load32 b (off+4*cid) = o+start (as.map f) cid ∧
      At b (base+start (as.map f) cid) (f as[cid]) := by
  constructor
  · rw [load32_array ho hn cid (by rw [starts_length, List.length_map]; omega), starts_getElem]
  · rw [List.flatMap_def] at h
    have hat := at_flatten b (as.map f) base h cid (by rwa [List.length_map])
    rwa [List.getElem_map] at hat

theorem header_fields (hb : Built raw s) :
    let b := headerBytes raw s++s.body
    load32 b 8 = (buildCharTableV4 raw).length ∧ load32 b 12 = (dictWords raw).length ∧
    load32 b 16 = Sections.charOff ∧ load32 b 20 = s.wordOff ∧ load32 b 24 = s.firstOff ∧
    load32 b 28 = s.keyOff ∧ load32 b 0x24 = s.charOffsOff ∧ load32 b 0x28 = s.wordOffsOff ∧
    load32 b 0x2C = s.prefixOff := by
  obtain ⟨-, -, -, hf⟩ := header_at raw s s.body hb
  have hlen : (s.headerFields (buildCharTableV4 raw).length (dictWords raw).length).length = 14 := rfl
  exact ⟨hf 0 (by omega), hf 1 (by omega), hf 2 (by omega), hf 3 (by omega), hf 4 (by omega),
    hf 5 (by omega), hf 7 (by omega), hf 8 (by omega), hf 9 (by omega)⟩

theorem built_size (hb : Built raw s) : s.totalSize < 4294967296 :=
  hb.fieldFits _ (by simp [Sections.headerFields])

theorem built_offsets (hb : Built raw s) :
    0 < s.prefixOff ∧ ∀ off ∈ [Sections.charOff, s.wordOff, s.firstOff, s.keyOff, s.charOffsOff,
      s.wordOffsOff], off < s.totalSize := by
  have hp : 4 ≤ s.prefixes.length := by
    rw [hb.prefixes, List.length_append]
    exact Nat.le_add_right _ _
  simp only [List.mem_cons, List.not_mem_nil, or_false, forall_eq_or_imp, forall_eq,
    Sections.totalSize, Sections.zhEnd, Sections.prefixOff, Sections.wordOffsOff,
    Sections.charOffsOff, Sections.keyOff, Sections.firstOff, Sections.wordOff, Sections.charOff,
    headerSize]
  omega

theorem built_load (hb : Built raw s) (t₀ : CompositionSearcher) :
    ∃ t, t₀.loadFromMemory (some (headerBytes raw s++s.body)) = (t, true) ∧
      Mapped (headerBytes raw s++s.body) (syllablePrefixes raw (buildCharTableV4 raw)) t := by
  obtain ⟨hmagic, hversion, -, -⟩ := header_at raw s s.body hb
  obtain ⟨-, -, hchar, hword, hfirst, hkey, hcharOffs, hwordOffs, hprefixOff⟩ := header_fields hb
  obtain ⟨hpos, hoffs⟩ := built_offsets hb
  have hlen := blob_length raw s
  apply load_mapped t₀ _ _ ?_ hmagic hversion
  · rw [hchar, hword, hfirst, hkey, hcharOffs, hwordOffs, hlen]
    exact hoffs
  · rw [hprefixOff]
    apply prefixes_at hb (sections_at raw s).prefixes (by omega)
    rw [hlen]
    exact built_size hb
  · have := hoffs Sections.charOff (by simp)
    simp only [Sections.charOff, headerSize] at this
    omega

theorem built_chars (hb : Built raw s)
    (ht : Mapped (headerBytes raw s++s.body) (syllablePrefixes raw (buildCharTableV4 raw)) t)
    (cid : ℕ) (h : cid < (buildCharTableV4 raw).length) :
    (t.charDataAt cid).1 = Ime.utf8 (buildCharTableV4 raw)[cid].1 ∧
      (t.charDataAt cid).2.1 = (buildCharTableV4 raw)[cid].2.length ∧
      t.charReadings cid = (buildCharTableV4 raw)[cid].2.map Reading.stored := by
  have hat := sections_at raw s
  obtain ⟨-, -, hpos, -⟩ := header_at raw s s.body hb
  obtain ⟨-, -, hchar, -, -, -, hcharOffs, -, -⟩ := header_fields hb
  obtain ⟨hoff, hrec⟩ := record_at charBytes (buildCharTableV4 raw) s.charOffsOff Sections.charOff
    0 cid (hb.chars ▸ hat.chars) (hb.charOffsets ▸ hat.charOffsets) hb.charOffsetFits h
  apply char_data_at t (by rw [ht.pos, hpos]; rfl) cid _ (hb.charFits _ (List.getElem_mem h))
  rw [ht.file, ht.charTable, ht.charOffsets, hchar, hcharOffs, hoff, Nat.zero_add]
  exact hrec

theorem built_words (hb : Built raw s)
    (ht : Mapped (headerBytes raw s++s.body) (syllablePrefixes raw (buildCharTableV4 raw)) t)
    (wid : ℕ) : t.getWord wid = ((dictWords raw)[wid]?).map WordEntry.stored := by
  have hat := sections_at raw s
  obtain ⟨-, hcount, -, hword, -, -, -, hwordOffs, -⟩ := header_fields hb
  have hwords : t.wordCount = (dictWords raw).length := ht.wordCount.trans hcount
  by_cases h : wid < (dictWords raw).length
  · have hrecords : At (headerBytes raw s++s.body) (s.wordOff+groupHeadersSize)
        ((dictWords raw).flatMap wordBytes) := by
      have hw := hat.words
      rw [hb.words] at hw
      exact ((at_append _ _ _ _).mp hw).2
    obtain ⟨hoff, hrec⟩ := record_at wordBytes (dictWords raw) s.wordOffsOff
      (s.wordOff+groupHeadersSize) groupHeadersSize wid hrecords
      (hb.wordOffsets ▸ hat.wordOffsets) hb.wordOffsetFits h
    have hok := dict_words_ok raw _ (List.getElem_mem h)
    rw [List.getElem?_eq_getElem h, Option.map_some]
    apply get_word_at t wid _ (hb.wordFits _ (List.getElem_mem h)) hok.idxs (by omega)
    rw [ht.file, ht.wordTable, ht.wordOffsets, hword, hwordOffs, hoff, ← Nat.add_assoc]
    exact hrec
  · rw [List.getElem?_eq_none (by omega), Option.map_none, CompositionSearcher.getWord,
      if_pos (by omega)]

theorem built_decodes (hb : Built raw s)
    (ht : Mapped (headerBytes raw s++s.body) (syllablePrefixes raw (buildCharTableV4 raw)) t) :
    Decodes (buildCharTableV4 raw) (dictGroups raw)
      (syllablePrefixes raw (buildCharTableV4 raw)) t := by
  have hat := sections_at raw s
  obtain ⟨-, -, hpos, -⟩ := header_at raw s s.body hb
  obtain ⟨hchars, hwords, -, hword, hfirst, hkey, -, -, -⟩ := header_fields hb
  have hlen : t.buf.length < 4294967296 := by
    rw [ht.file, blob_length]
    exact built_size hb
  have hcount : t.charCount = (buildCharTableV4 raw).length := ht.charCount.trans hchars
  refine ⟨ht.loaded, by rw [ht.pos, hpos]; rfl, hcount, ht.wordCount.trans hwords, ?_, ?_,
    built_words hb ht, ?_, ?_, ?_, ht.prefixTable⟩
  · intro cid h
    obtain ⟨hutf8, hreadings, -⟩ := built_chars hb ht cid h
    exact ⟨hutf8, hreadings⟩
  · intro cid h idx
    obtain ⟨-, -, hreadings⟩ := built_chars hb ht cid h
    rw [CompositionSearcher.getReading, hreadings, List.getElem?_map]
  · intro g hg
    have hheaders : At (headerBytes raw s++s.body) s.wordOff
        ((groupHeaders (dictGroups raw)).flatMap le32) := by
      have hw := hat.words
      rw [hb.words] at hw
      exact ((at_append _ _ _ _).mp hw).1
    obtain ⟨hc, hs⟩ := group_headers_at (dictGroups raw) g hg _ hheaders hb.groupFits
    have hlt : g < 8 := hg
    rw [ht.groups, List.getD_eq_getElem?_getD, List.getElem?_map, List.getElem?_range hlt, hword]
    simp only [Option.map_some, Option.getD_some, hc, hs]
  · intro cid hcid
    have hbuckets : (firstCharBuckets (dictWords raw) (buildCharTableV4 raw).length).length =
        t.charCount := by rw [hcount, firstCharBuckets, List.length_map, List.length_range]
    rw [words_from_at t _ hbuckets (by rw [ht.file, ht.firstCharIdx, hfirst]; exact
      hb.firstIdx ▸ hat.firstIdx) hb.firstFits.1 hb.firstFits.2 hlen cid (hcount ▸ hcid)]
    rw [firstCharBuckets, List.getD_eq_getElem?_getD, List.getElem?_map,
      List.getElem?_range hcid, Option.map_some, Option.getD_some]
    rfl
  · intro slot hslot
    have hbuckets : (keyBuckets (buildCharTableV4 raw)).length = numSlots := by
      rw [keyBuckets, List.length_map, List.length_range]
    rw [chars_from_at t _ hbuckets (by rw [ht.file, ht.keyToCharIdx, hkey]; exact
      hb.keyIdx ▸ hat.keyIdx) hb.keyFits.1 hb.keyFits.2 hlen slot hslot]
    rw [keyBuckets, List.getD_eq_getElem?_getD, List.getElem?_map, List.getElem?_range hslot,
      Option.map_some, Option.getD_some]

end Read

theorem grouped_length (words : List WordEntry) : (groupedWords words).length = maxGroup := by
  rw [groupedWords, List.length_map, List.length_range]

theorem group_range (raw : List RawEntry) (g : ℕ) (hg : g < maxGroup) (wid : ℕ)
    (h : wid < (dictWords raw).length) :
    start (dictGroups raw) g ≤ wid ∧ wid < start (dictGroups raw) g+((dictGroups raw).getD g []).length ↔
      bucketOf (dictWords raw)[wid] = g+1 := by
  have hlen : (dictGroups raw).length = maxGroup := grouped_length _
  have hg' : g < (dictGroups raw).length := hlen ▸ hg
  have hrange := bucket_range (dictGroups raw) (fun w => bucketOf w-1)
    (fun k hk => group_key _ k hk) wid h g hg'
  have hpos := (bucket_of (dictWords raw)[wid] (by
    have := (dict_words_ok raw _ (List.getElem_mem h)).length
    omega)).1
  rw [start_succ _ _ hg'] at hrange
  rw [List.getD_eq_getElem?_getD, List.getElem?_eq_getElem hg', Option.getD_some, hrange]
  simp only [dictWords] at hpos ⊢
  omega

theorem build_decodes (raw : List RawEntry) (enDat enVal blob : Bytes)
    (h : buildMiedV4 raw enDat enVal = some blob) (t₀ : CompositionSearcher) :
    ∃ t, t₀.loadFromMemory (some blob) = (t, true) ∧
      Decodes (buildCharTableV4 raw) (dictGroups raw)
        (syllablePrefixes raw (buildCharTableV4 raw)) t ∧ (dictWords raw).length < 4294967296 := by
  obtain ⟨s, hb, -, rfl⟩ := build_layout raw enDat enVal blob h
  obtain ⟨t, hload, ht⟩ := built_load hb t₀
  exact ⟨t, hload, built_decodes hb ht, hb.fieldFits _ (by simp [Sections.headerFields])⟩

/-- Every file that the builder writes is accepted, whatever was loaded before, and
its accessors give back the tables; the ids of each group are those of the words
with its number of characters. -/
theorem mied_v4_round_trip (raw : List RawEntry) (enDat enVal blob : Bytes)
    (h : buildMiedV4 raw enDat enVal = some blob) (t₀ : CompositionSearcher) :
    ∃ t, t₀.loadFromMemory (some blob) = (t, true) ∧
      Decodes (buildCharTableV4 raw) (dictGroups raw)
        (syllablePrefixes raw (buildCharTableV4 raw)) t ∧
      ∀ g < maxGroup, ∀ wid, ∀ hw : wid < (dictWords raw).length,
        (t.groups.getD g (0, 0)).2 ≤ wid ∧
          wid < (t.groups.getD g (0, 0)).2+(t.groups.getD g (0, 0)).1 ↔
        bucketOf (dictWords raw)[wid] = g+1 := by
  obtain ⟨t, hload, hdec, -⟩ := build_decodes raw enDat enVal blob h t₀
  refine ⟨t, hload, hdec, ?_⟩
  intro g hg wid hw
  rw [hdec.groupHeader g hg]
  exact group_range raw g hg wid hw

/-- 行 with two readings, the second one used in 銀行. -/
def sampleEntries : List RawEntry :=
  [⟨['行'], 90, ['ㄒ', 'ㄧ', 'ㄥ', 'ˊ']⟩,
    ⟨['銀', '行'], 50, ['ㄧ', 'ㄣ', 'ˊ', ' ', 'ㄏ', 'ㄤ', 'ˊ']⟩, ⟨['八'], 70000, ['ㄅ', 'ㄚ']⟩]

theorem sample_round_trip : ∃ blob t, buildMiedV4 sampleEntries [0x4D] [0x49] = some blob ∧
    CompositionSearcher.init.loadFromMemory (some blob) = (t, true) ∧
    Decodes (buildCharTableV4 sampleEntries) (dictGroups sampleEntries)
      (syllablePrefixes sampleEntries (buildCharTableV4 sampleEntries)) t := by
  have hsome : (buildMiedV4 sampleEntries [0x4D] [0x49]).isSome = true := by decide +kernel
  obtain ⟨blob, hblob⟩ := Option.isSome_iff_exists.mp hsome
  obtain ⟨t, hload, hdec, -⟩ := mied_v4_round_trip sampleEntries [0x4D] [0x49] blob hblob .init
  exact ⟨blob, t, hblob, hload, hdec⟩

end MokyaLora.GenDict
