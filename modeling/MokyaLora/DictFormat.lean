import MokyaLora.DictTables
import MokyaLora.KeyTable
import MokyaLora.Lib.Buckets

/-!
# The dictionary file

A header of 64 bytes and seven sections: characters, words, two indexes, two
offset tables and the syllable prefixes, with an English dictionary behind them.
`struct.pack` and `bytearray.append` refuse a number that does not fit, and with
it the whole build.
-/

set_option autoImplicit false

namespace MokyaLora.GenDict
open Lib.Fields Lib.Buckets

def packB (n : ℕ) : Option Bytes := if n < 256 then some [UInt8.ofNat n] else none

def packH (n : ℤ) : Option Bytes := if 0 ≤ n ∧ n < 65536 then some (le16 n.toNat) else none

def packHs (ns : List ℕ) : Option Bytes :=
  if ∀ n ∈ ns, n < 65536 then some (ns.flatMap le16) else none

def packI (ns : List ℕ) : Option Bytes :=
  if ∀ n ∈ ns, n < 4294967296 then some (ns.flatMap le32) else none

def packQ (ns : List ℕ) : Option Bytes :=
  if ∀ n ∈ ns, n < 18446744073709551616 then some (ns.flatMap le64) else none

def readingRecord (r : Reading) : Option Bytes := do
  let klen ← packB r.keyseq.length
  let pos ← packB (packPhonemePos r.pos)
  let tone ← packB r.tone
  let freq ← packH (min r.freq 0xFFFF)
  pure (klen++r.keyseq++pos++tone++freq)

def charRecord (p : Char × List Reading) : Option Bytes := do
  let ulen ← packB (Ime.utf8 p.1).length
  let count ← packB p.2.length
  let readings ← p.2.mapM readingRecord
  pure (ulen++Ime.utf8 p.1++count++readings.flatten)

def serializeCharTableV4 (table : CharTable) : Option (List Bytes) := table.mapM charRecord

def hasOverrides (w : WordEntry) : Bool := w.readingIdxs.any (fun r => r ≠ 0)

/-- The reading indexes, left out when all of them are zero. -/
def packOverrides (w : WordEntry) : Option (List Bytes) :=
  if hasOverrides w then w.readingIdxs.mapM packB else some []

def wordRecord (w : WordEntry) : Option Bytes := do
  let count ← packB w.charIds.length
  let flags ← packB (if hasOverrides w then 1 else 0)
  let freq ← packH (min w.freq 0xFFFF)
  let ids ← packHs w.charIds
  let idxs ← packOverrides w
  pure (count++flags++freq++ids++idxs.flatten)

def groupHeaders (groups : List (List WordEntry)) : List ℕ :=
  (List.range maxGroup).flatMap (fun g => [(groups.getD g []).length, start groups g])

def serializeWordTableV4 (groups : List (List WordEntry)) : Option (Bytes × List Bytes) := do
  let headers ← packI (groupHeaders groups)
  let records ← groups.flatten.mapM wordRecord
  pure (headers, records)

/-- An index: where each list starts, and the lists. -/
def serializeIndex (pack : List ℕ → Option Bytes) (buckets : List (List ℕ)) : Option Bytes := do
  let offsets ← packI (starts 0 buckets)
  let ids ← pack buckets.flatten
  pure (offsets++ids)

def firstCharBuckets (flat : List WordEntry) (charCount : ℕ) : List (List ℕ) :=
  (List.range charCount).map (wordsByFirstChar flat)

def serializeFirstCharIdxV4 (flat : List WordEntry) (charCount : ℕ) : Option Bytes :=
  serializeIndex packI (firstCharBuckets flat charCount)

def keyBuckets (table : CharTable) : List (List ℕ) := (List.range numSlots).map (charsByKey table)

def serializeKeyToCharIdxV4 (table : CharTable) : Option Bytes :=
  serializeIndex packHs (keyBuckets table)

def serializeSyllablePrefixTableV4 (prefixes : List ℕ) : Option Bytes := do
  let count ← packI [prefixes.length]
  let entries ← packQ prefixes
  pure (count++entries)

def magicV4 : Bytes := [0x4D, 0x49, 0x45, 0x34]

def versionV4 : ℕ := 4

def headerFlagPhonemePos : ℕ := 1

def headerSize : ℕ := 0x40

def groupHeadersSize : ℕ := 64

structure Sections where
  chars : Bytes
  words : Bytes
  firstIdx : Bytes
  keyIdx : Bytes
  charOffsets : Bytes
  wordOffsets : Bytes
  prefixes : Bytes
  enDat : Bytes
  enVal : Bytes

namespace Sections

variable (s : Sections)

def charOff : ℕ := headerSize

def wordOff : ℕ := charOff+s.chars.length

def firstOff : ℕ := s.wordOff+s.words.length

def keyOff : ℕ := s.firstOff+s.firstIdx.length

def charOffsOff : ℕ := s.keyOff+s.keyIdx.length

def wordOffsOff : ℕ := s.charOffsOff+s.charOffsets.length

def prefixOff : ℕ := s.wordOffsOff+s.wordOffsets.length

def zhEnd : ℕ := s.prefixOff+s.prefixes.length

def enDatOff : ℕ := if s.enDat ≠ [] then s.zhEnd else 0

def enValOff : ℕ := if s.enVal ≠ [] then s.enDatOff+s.enDat.length else 0

def totalSize : ℕ := s.zhEnd+s.enDat.length+s.enVal.length

def headerFields (charCount wordCount : ℕ) : List ℕ :=
  [charCount, wordCount, charOff, s.wordOff, s.firstOff, s.keyOff, s.totalSize, s.charOffsOff,
    s.wordOffsOff, s.prefixOff, s.enDatOff, s.enDat.length, s.enValOff, s.enVal.length]

def body : Bytes :=
  s.chars++(s.words++(s.firstIdx++(s.keyIdx++(s.charOffsets++(s.wordOffsets++(s.prefixes++
    (s.enDat++s.enVal)))))))

end Sections

def buildMiedV4 (raw : List RawEntry) (enDat enVal : Bytes) : Option Bytes := do
  let table := buildCharTableV4 raw
  let groups := dictGroups raw
  let chars ← serializeCharTableV4 table
  let (headers, records) ← serializeWordTableV4 groups
  let firstIdx ← serializeFirstCharIdxV4 groups.flatten table.length
  let keyIdx ← serializeKeyToCharIdxV4 table
  let charOffsets ← packI (starts 0 chars)
  let wordOffsets ← packI (starts groupHeadersSize records)
  let prefixes ← serializeSyllablePrefixTableV4 (syllablePrefixes raw table)
  let s : Sections := ⟨chars.flatten, headers++records.flatten, firstIdx, keyIdx, charOffsets,
    wordOffsets, prefixes, enDat, enVal⟩
  let version ← packHs [versionV4, headerFlagPhonemePos]
  let fields ← packI (s.headerFields table.length groups.flatten.length)
  pure (magicV4++version++fields++s.body)

end MokyaLora.GenDict
