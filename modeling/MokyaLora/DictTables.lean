import MokyaLora.Phonemes
import MokyaLora.Lib.Dict
import Mathlib.Data.List.Sort

/-!
# The tables of a dictionary

From the raw entries the builder collects the readings of every character and
the words of two or more characters, numbers both, and groups the words by their
number of characters.
-/

set_option autoImplicit false

namespace MokyaLora.GenDict
open Lib.Fields

structure RawEntry where
  word : List Char
  freq : ℤ
  reading : List Char

abbrev ReadingKey := Bytes × List ℕ × ℕ

structure Reading where
  keyseq : Bytes
  pos : List ℕ
  tone : ℕ
  freq : ℕ
  deriving DecidableEq

abbrev CharTable := List (Char × List Reading)

structure WordEntry where
  word : List Char
  charIds : List ℕ
  readingIdxs : List ℕ
  freq : ℤ
  tone : ℕ
  deriving DecidableEq

def isCjk (ch : Char) : Bool :=
  (0x3400 ≤ ch.toNat && ch.toNat ≤ 0x9FFF) || (0x20000 ≤ ch.toNat && ch.toNat ≤ 0x2FFFF)

def readingKey (syl : List Char) : ReadingKey :=
  ((phonemesToKeyseqWithPos syl).1, (phonemesToKeyseqWithPos syl).2, syllableTone syl)

abbrev Accum := List (Char × List (ReadingKey × ℕ))

def recordReading (effFreq : ℕ) (accum : Accum) (p : Char × List Char) : Accum :=
  let (ch, syl) := p
  let key := readingKey syl
  if key.1 = [] then accum
  else
    let chDict := (Lib.Dict.get? accum ch).getD []
    if (Lib.Dict.get? chDict key).getD 0 < effFreq then
      Lib.Dict.set accum ch (Lib.Dict.set chDict key effFreq)
    else Lib.Dict.set accum ch chDict

def recordEntry (accum : Accum) (e : RawEntry) : Accum :=
  let sylls := parseReadingSyllables e.reading
  if ¬ e.word.all isCjk then accum
  else if sylls.length ≠ e.word.length then accum
  else (e.word.zip sylls).foldl (recordReading (max e.freq 1).toNat) accum

def sortedReadings (chDict : List (ReadingKey × ℕ)) : List Reading :=
  (chDict.map (fun p => (⟨p.1.1, p.1.2.1, p.1.2.2, p.2⟩ : Reading))).insertionSort
    (fun a b => b.freq ≤ a.freq)

def accumulate (raw : List RawEntry) : Accum := raw.foldl recordEntry []

def charTableOf (accum : Accum) : CharTable :=
  ((Lib.Dict.keys accum).insertionSort (fun a b => a ≤ b)).map
    (fun ch => (ch, sortedReadings ((Lib.Dict.get? accum ch).getD [])))

def buildCharTableV4 (raw : List RawEntry) : CharTable := charTableOf (accumulate raw)

def charToId (table : CharTable) (ch : Char) : Option ℕ :=
  table.findIdx? (fun p => decide (p.1 = ch))

def charReadings (table : CharTable) (cid : ℕ) : List Reading :=
  match table[cid]? with
  | some p => p.2
  | none => []

/-- The entry with the highest frequency for each word, with its syllables. -/
abbrev Best := List (List Char × ℤ × List (List Char))

def recordBest (table : CharTable) (best : Best) (e : RawEntry) : Best :=
  let sylls := parseReadingSyllables e.reading
  if e.word.length < 2 then best
  else if ¬ e.word.all isCjk then best
  else if ¬ e.word.all (fun c => (charToId table c).isSome) then best
  else if sylls.length ≠ e.word.length then best
  else match Lib.Dict.get? best e.word with
    | none => Lib.Dict.set best e.word (e.freq, sylls)
    | some prev =>
      if prev.1 < e.freq then Lib.Dict.set best e.word (e.freq, sylls) else best

/-- The reading of the same keys, positions and tone, else the first one of the
same keys and tone, else the default. -/
def readingIndex (readings : List Reading) (syl : List Char) : ℕ :=
  let key := readingKey syl
  match readings.findIdx? (fun r =>
    decide (r.keyseq = key.1 ∧ r.pos = key.2.1 ∧ r.tone = key.2.2)) with
  | some i => i
  | none => (readings.findIdx? (fun r => decide (r.keyseq = key.1 ∧ r.tone = key.2.2))).getD 0

def wordEntry (table : CharTable) (p : List Char × ℤ × List (List Char)) : WordEntry where
  word := p.1
  charIds := p.1.map (fun c => (charToId table c).getD 0)
  readingIdxs := (p.1.zip p.2.2).map
    (fun q => readingIndex (charReadings table ((charToId table q.1).getD 0)) q.2)
  freq := p.2.1
  tone := match p.2.2.getLast? with
    | some syl => syllableTone syl
    | none => 0

def buildWordTableV4 (raw : List RawEntry) (table : CharTable) : List WordEntry :=
  (raw.foldl (recordBest table) []).map (wordEntry table)

def maxGroup : ℕ := 8

/-- Words of eight or more characters share a group. -/
def bucketOf (w : WordEntry) : ℕ :=
  if w.charIds.length < maxGroup then w.charIds.length else maxGroup

def groupWords (words : List WordEntry) (bucket : ℕ) : List WordEntry :=
  (words.filter (fun w => bucketOf w = bucket)).insertionSort (fun a b => b.freq ≤ a.freq)

def groupedWords (words : List WordEntry) : List (List WordEntry) :=
  (List.range maxGroup).map (fun g => groupWords words (g+1))

def wordsByFirstChar (flat : List WordEntry) (cid : ℕ) : List ℕ :=
  ((flat.zipIdx.filter (fun p => p.1.charIds.head? = some cid)).insertionSort
    (fun a b => b.1.freq ≤ a.1.freq)).map Prod.snd

def keyMin : ℕ := 0x20

def numSlots : ℕ := 24

/-- The ids of the characters that have a reading from a key on, in ascending order. -/
def charsByKey (table : CharTable) (slot : ℕ) : List ℕ :=
  (List.range table.length).filter (fun cid =>
    (charReadings table cid).any (fun r =>
      decide (r.keyseq.head? = some (UInt8.ofNat (keyMin+slot)))))

/-- A sequence of at most four keys with its length in one number. -/
def packKeys (kb : Bytes) : ℕ :=
  kb.zipIdx.foldl (fun v p => v ||| (p.1.toNat <<< (8*p.2))) (kb.length <<< 32)

def keyPrefixSet (kb : Bytes) : List ℕ :=
  (List.range (min kb.length 4)).map (fun n => packKeys (kb.take (n+1)))

def sortedSet (ns : List ℕ) : List ℕ := ns.dedup.insertionSort (fun a b => a ≤ b)

def buildSyllablePrefixSet (raw : List RawEntry) : List ℕ :=
  sortedSet (raw.flatMap (fun e =>
    (parseReadingSyllables e.reading).flatMap (fun syl => keyPrefixSet (phonemesToKeyseq syl))))

def buildSyllablePrefixSetFromCharTable (table : CharTable) : List ℕ :=
  sortedSet (table.flatMap (fun p => p.2.flatMap (fun r => keyPrefixSet r.keyseq)))

/-- The raw entries yield the prefixes, the characters where they yield none. -/
def syllablePrefixes (raw : List RawEntry) (table : CharTable) : List ℕ :=
  let prefixes := buildSyllablePrefixSet raw
  if prefixes = [] then buildSyllablePrefixSetFromCharTable table else prefixes

def dictGroups (raw : List RawEntry) : List (List WordEntry) :=
  groupedWords (buildWordTableV4 raw (buildCharTableV4 raw))

def dictWords (raw : List RawEntry) : List WordEntry := (dictGroups raw).flatten

end MokyaLora.GenDict
