import MokyaLora.DictFormat

/-!
# The two-buffer dictionary file

Words are grouped by their key sequence. The keys are stored in ascending order with an
index in front of them, and for each key a record of its words, the most frequent first.
-/

set_option autoImplicit false

namespace MokyaLora.GenDict
open Lib.Fields Lib.Buckets

/-- A word of an entry; a tone of 0 is unknown. -/
structure MiedWord where
  word : List Char
  freq : ℤ
  tone : ℕ
  deriving DecidableEq

abbrev MiedEntry := Bytes × MiedWord

def sortedWords (wordList : List MiedWord) : List MiedWord :=
  wordList.insertionSort (fun a b => b.freq ≤ a.freq)

/-- The words whose encoding fits a candidate, with their terminator and a byte to spare. -/
def validWords (wordList : List MiedWord) : List MiedWord :=
  (sortedWords wordList).filter (fun w => decide ((Ime.text w.word).length < 31))

def miedWordRecord (w : MiedWord) : Option Bytes := do
  let freq ← packH (min w.freq 0xFFFF)
  let tone ← packB w.tone
  let len ← packB (Ime.text w.word).length
  pure (freq++tone++len++Ime.text w.word)

def buildValueRecord (wordList : List MiedWord) : Option Bytes := do
  let count ← packH (validWords wordList).length
  let records ← (validWords wordList).mapM miedWordRecord
  pure (count++records.flatten)

def keyRecord (ks : Bytes) : Option Bytes := do
  let len ← packB ks.length
  pure (len++ks)

def prune (maxPerKey : ℕ) (p : Bytes × List MiedWord) : Bytes × List MiedWord :=
  if 0 < maxPerKey ∧ maxPerKey < p.2.length then (p.1, (sortedWords p.2).take maxPerKey) else p

def keyToWords (entries : List MiedEntry) (maxPerKey : ℕ) : List (Bytes × List MiedWord) :=
  (Lib.Dict.group entries).map (prune maxPerKey)

def sortedKeys (dict : List (Bytes × List MiedWord)) : List Bytes :=
  (Lib.Dict.keys dict).insertionSort (fun a b => a ≤ b)

def magicMied : Bytes := [0x4D, 0x49, 0x45, 0x44]

def versionMied : ℕ := 2

def miedHeaderSize : ℕ := 16

def miedIndex (keys values : List Bytes) : List ℕ :=
  (List.range keys.length).flatMap (fun i => [start keys i, start values i])

def buildMied (entries : List MiedEntry) (maxPerKey : ℕ) : Option (Bytes × Bytes) := do
  let dict := keyToWords entries maxPerKey
  let keys := sortedKeys dict
  let values ← keys.mapM (fun ks => buildValueRecord ((Lib.Dict.get? dict ks).getD []))
  let keyRecords ← keys.mapM keyRecord
  let version ← packHs [versionMied, 0]
  let fields ← packI [keys.length, miedHeaderSize+keys.length*8]
  let index ← packI (miedIndex keyRecords values)
  pure (magicMied++version++fields++index++keyRecords.flatten, values.flatten)

end MokyaLora.GenDict
