import MokyaLora.LruCache
import MokyaLora.Lib.TopK

/-!
# Search in a composed dictionary

The file is read in place. Words are sequences of character ids with the reading
used of each; a word matches when the keys can be split into prefixes of its
readings. Two indexes lead from the first key to characters and from those to
words, and the most frequent matches are kept in a pool.
-/

set_option autoImplicit false

namespace MokyaLora
open Lib.Fields Lib.TopK

/-- Pointers into the file are offsets. `prefixTable` holds the numbers that its
pointer refers to, since a later file may leave the pointer as it is. -/
structure CompositionSearcher where
  buf : Bytes
  version : ℕ
  flags : ℕ
  hasPhonemePos : Bool
  charCount : ℕ
  wordCount : ℕ
  charTable : ℕ
  wordTable : ℕ
  firstCharIdx : ℕ
  keyToCharIdx : ℕ
  charOffsets : ℕ
  wordOffsets : ℕ
  groups : List (ℕ × ℕ)
  prefixTable : List ℕ
  loaded : Bool

structure ReadingView where
  keyseq : Bytes
  posPacked : ℕ
  tone : ℕ
  freq : ℕ
  deriving DecidableEq

/-- `readingIdxs` is absent where the code has a null pointer. -/
structure WordView where
  charCount : ℕ
  flags : ℕ
  freq : ℕ
  charIds : List ℕ
  readingIdxs : Option (List ℕ)
  deriving DecidableEq

structure Pick where
  charId : ℕ
  readingIdx : ℕ
  freq : ℕ
  tone : ℕ
  deriving DecidableEq

namespace CompositionSearcher

def kMagic : Bytes := [0x4D, 0x49, 0x45, 0x34]

def kVersion : ℕ := 4

def kHeaderSize : ℕ := 0x30

def kKeyByteMin : UInt8 := 0x20

def kKeyByteMax : UInt8 := 0x38

def kKeySlots : ℕ := 24

def kMaxGroups : ℕ := 8

def kPhonemeHintAny : UInt8 := 0xFF

def init : CompositionSearcher :=
  ⟨[], 0, 0, false, 0, 0, 0, 0, 0, 0, 0, 0, List.replicate kMaxGroups (0, 0), [], false⟩

def loadArray (load : Bytes → ℕ → ℕ) (width : ℕ) (buf : Bytes) (off n : ℕ) : List ℕ :=
  (List.range n).map (fun i => load buf (off+width*i))

def prefixTableAt (buf : Bytes) (prefixOff : ℕ) : Option (List ℕ) :=
  if prefixOff ≠ 0 ∧ u32 (prefixOff+4) ≤ buf.length then
    if u32 (prefixOff+4)+load32 buf prefixOff*8 ≤ buf.length then
      some (loadArray load64 8 buf (prefixOff+4) (load32 buf prefixOff))
    else none
  else none

def parseHeader (t : CompositionSearcher) : CompositionSearcher × Bool :=
  if slice t.buf 0 4 ≠ kMagic then (t, false)
  else
    let t := { t with version := load16 t.buf 4 }
    if t.version ≠ kVersion then (t, false)
    else
      let t := { t with
        flags := load16 t.buf 6
        hasPhonemePos := load16 t.buf 6 % 2 == 1
        charCount := load32 t.buf 8
        wordCount := load32 t.buf 12 }
      let charOff := load32 t.buf 16
      let wordOff := load32 t.buf 20
      let firstOff := load32 t.buf 24
      let keyOff := load32 t.buf 28
      let charOffsOff := load32 t.buf 0x24
      let wordOffsOff := load32 t.buf 0x28
      if ∃ off ∈ [charOff, wordOff, firstOff, keyOff, charOffsOff, wordOffsOff],
          t.buf.length ≤ off then (t, false)
      else
        ({ t with
          charTable := charOff
          wordTable := wordOff
          firstCharIdx := firstOff
          keyToCharIdx := keyOff
          charOffsets := charOffsOff
          wordOffsets := wordOffsOff
          prefixTable := (prefixTableAt t.buf (load32 t.buf 0x2C)).getD t.prefixTable
          groups := (List.range kMaxGroups).map (fun g =>
            (load32 t.buf (wordOff+8*g), load32 t.buf (wordOff+8*g+4))) }, true)

/-- `none` is the null pointer. -/
def loadFromMemory (t : CompositionSearcher) (buf : Option Bytes) : CompositionSearcher × Bool :=
  let t := { t with loaded := false, charOffsets := 0, wordOffsets := 0 }
  match buf with
  | none => (t, false)
  | some buf =>
    if buf.length < kHeaderSize then (t, false)
    else match parseHeader { t with buf } with
      | (t, true) => ({ t with loaded := true }, true)
      | (t, false) => (t, false)

def packPrefix (b : Bytes) : ℕ :=
  ((b.take 4).zipIdx).foldl (fun v p => v ||| (p.1.toNat <<< (8*p.2))) (b.length <<< 32)

variable (t : CompositionSearcher)

/-- The binary search; the interval shrinks in every round. -/
def lowerBound (key : ℕ) : ℕ → ℕ → ℕ → ℕ
  | 0, lo, _ => lo
  | n+1, lo, hi =>
    if lo < hi then
      let mid := lo+(hi-lo)/2
      if t.prefixTable.getD mid 0 < key then lowerBound key n (mid+1) hi
      else lowerBound key n lo mid
    else lo

def hasReadingPrefix (b : Bytes) : Bool :=
  if t.prefixTable = [] ∨ b = [] ∨ 4 < b.length then false
  else
    let size := t.prefixTable.length
    let lo := t.lowerBound (packPrefix b) size 0 size
    decide (lo < size) && t.prefixTable.getD lo 0 == packPrefix b

def longestPrefix (keys : Bytes) : ℕ → ℕ
  | 0 => 0
  | len+1 => if t.hasReadingPrefix (keys.take (len+1)) then len+1 else longestPrefix keys len

/-- Every round consumes a key, so their number is enough rounds. -/
def countFrom : ℕ → Bytes → ℕ
  | 0, _ => 0
  | n+1, keys =>
    if keys = [] then 0
    else
      let best := t.longestPrefix keys (min keys.length 4)
      if best = 0 then countFrom n (keys.drop 1) else 1+countFrom n (keys.drop best)

def countSyllables (keys : Bytes) : ℕ := t.countFrom keys.length keys

theorem lower_bound_table (t t' : CompositionSearcher) (h : t.prefixTable = t'.prefixTable)
    (key n lo hi : ℕ) : t.lowerBound key n lo hi = t'.lowerBound key n lo hi := by
  induction n generalizing lo hi with
  | zero => rfl
  | succ n ih => simp only [lowerBound, h, ih]

theorem has_prefix_table (t t' : CompositionSearcher) (h : t.prefixTable = t'.prefixTable)
    (b : Bytes) : t.hasReadingPrefix b = t'.hasReadingPrefix b := by
  simp only [hasReadingPrefix, h, lower_bound_table t t' h]

theorem longest_prefix_table (t t' : CompositionSearcher) (h : t.prefixTable = t'.prefixTable)
    (keys : Bytes) (len : ℕ) : t.longestPrefix keys len = t'.longestPrefix keys len := by
  induction len with
  | zero => rfl
  | succ len ih => simp only [longestPrefix, has_prefix_table t t' h, ih]

theorem count_table (t t' : CompositionSearcher) (h : t.prefixTable = t'.prefixTable)
    (keys : Bytes) : t.countSyllables keys = t'.countSyllables keys := by
  have hcount : ∀ n ks, t.countFrom n ks = t'.countFrom n ks := by
    intro n
    induction n with
    | zero => exact fun _ => rfl
    | succ n ih =>
      intro ks
      simp only [countFrom, longest_prefix_table t t' h, ih]
  exact hcount keys.length keys

def charDataAt (cid : ℕ) : Bytes × ℕ × ℕ :=
  let p := t.charTable+load32 t.buf (t.charOffsets+4*cid)
  let ulen := byteAt t.buf p
  (slice t.buf (p+1) ulen, byteAt t.buf (p+1+ulen), p+2+ulen)

def readingAt (p : ℕ) : ReadingView × ℕ :=
  let klen := byteAt t.buf p
  let q := p+1+klen
  let posPacked := if t.hasPhonemePos then byteAt t.buf q else 0
  let q := if t.hasPhonemePos then q+1 else q
  (⟨slice t.buf (p+1) klen, posPacked, byteAt t.buf q, load16 t.buf (q+1)⟩, q+3)

def readings : ℕ → ℕ → List ReadingView
  | 0, _ => []
  | n+1, p => (t.readingAt p).1::readings n (t.readingAt p).2

def charReadings (cid : ℕ) : List ReadingView :=
  let (_, count, p) := t.charDataAt cid
  t.readings count p

def getReading (cid readingIdx : ℕ) : Option ReadingView := (t.charReadings cid)[readingIdx]?

def unpackPhonemePos (packed i : ℕ) : ℕ := (packed >>> (2*i)) &&& 3

def getWord (wid : ℕ) : Option WordView :=
  if t.wordCount ≤ wid then none
  else
    let p := t.wordTable+load32 t.buf (t.wordOffsets+4*wid)
    let count := byteAt t.buf p
    let flags := byteAt t.buf (p+1)
    some ⟨count, flags, load16 t.buf (p+2), loadArray load16 2 t.buf (p+4) count,
      if flags % 2 = 1 then some (loadArray byteAt 1 t.buf (p+4+2*count) count) else none⟩

def wordChars (w : WordView) : List (ℕ × ℕ) :=
  match w.readingIdxs with
  | some idxs => w.charIds.zip idxs
  | none => w.charIds.map (fun cid => (cid, 0))

def triedLengths (klen : ℕ) : List ℕ :=
  [klen, klen-1, 2, 1].foldl
    (fun tried p => if p < 1 ∨ klen < p ∨ p ∈ tried then tried else tried++[p]) []

def posOk (posPacked : ℕ) (hints : Option Bytes) (prefixLen : ℕ) : Bool :=
  match hints with
  | none => true
  | some hints => (List.range prefixLen).all (fun k =>
    hints.getD k kPhonemeHintAny == kPhonemeHintAny ||
      unpackPhonemePos posPacked k == (hints.getD k kPhonemeHintAny).toNat)

/-- The keys consumed by a prefix of a reading: one more for a first-tone marker
behind a whole reading of the first tone. -/
def consumedKeys (r : ReadingView) (keys : Bytes) (plen : ℕ) : ℕ :=
  if plen = r.keyseq.length ∧ r.tone = 1 ∧ keys[plen]? = some 0x20 then plen+1 else plen

/-- The readings are those of the characters left, `keys` and `hints` what is left
of the input. -/
def compositionRecurse : List (Option ReadingView) → Bytes → Option Bytes → Bool
  | _, [], _ => true
  | [], _::_, _ => false
  | none::_, _::_, _ => false
  | some r::rs, k::ks, hints =>
    let keys := k::ks
    (triedLengths r.keyseq.length).any (fun plen =>
      if keys.length < plen then
        r.keyseq.take keys.length == keys && posOk r.posPacked hints keys.length
      else if r.keyseq.take plen == keys.take plen && posOk r.posPacked hints plen then
        let n := consumedKeys r keys plen
        compositionRecurse rs (keys.drop n) (hints.map (fun h => h.drop n))
      else false)

/-- Hints are ignored without positions in the file. -/
def checkedHints (hints : Option Bytes) : Option Bytes := if t.hasPhonemePos then hints else none

def wordReadings (w : WordView) : List (Option ReadingView) :=
  (wordChars w).map (fun p => t.getReading p.1 p.2)

def compositionMatches (w : WordView) (keys : Bytes) (hints : Option Bytes) : Bool :=
  compositionRecurse (t.wordReadings w) keys (t.checkedHints hints)

def appendChars : List ℕ → Bytes → Bytes
  | [], written => written
  | cid::cids, written =>
    let utf8 := (t.charDataAt cid).1
    if kCandidateMaxBytes-1 < written.length+utf8.length then written
    else appendChars cids (written++utf8)

theorem append_chars_fits (cids : List ℕ) (written : Bytes)
    (h : written.length < kCandidateMaxBytes) :
    (t.appendChars cids written).length < kCandidateMaxBytes := by
  induction cids generalizing written with
  | nil => exact h
  | cons cid cids ih =>
    rw [appendChars]
    split
    · exact h
    · apply ih
      rw [List.length_append]
      simp only [kCandidateMaxBytes] at *
      omega

def getWordTone (w : WordView) : ℕ :=
  match (t.wordReadings w).getLast? with
  | some (some r) => r.tone
  | _ => 0

def wordCandidate (w : WordView) : Candidate :=
  .ofBytes (t.appendChars w.charIds []) w.freq (t.getWordTone w)
    (t.append_chars_fits w.charIds [] (by decide))

def charsFrom (firstByte : UInt8) : List ℕ :=
  let slot := firstByte.toNat-kKeyByteMin.toNat
  let cs := load32 t.buf (t.keyToCharIdx+4*slot)
  let ce := load32 t.buf (t.keyToCharIdx+4*(slot+1))
  (List.range' cs (ce-cs)).map (fun i =>
    load16 t.buf (t.keyToCharIdx+4*(kKeySlots+1)+u32 (2*i)))

def wordsFrom (cid : ℕ) : List ℕ :=
  let ws := load32 t.buf (t.firstCharIdx+4*cid)
  let we := load32 t.buf (t.firstCharIdx+4*(cid+1))
  (List.range' ws (we-ws)).map (fun j =>
    load32 t.buf (t.firstCharIdx+u32 (4*u32 (t.charCount+1))+u32 (4*j)))

/-- The keys that a single character is matched with, and whether a first-tone
marker stood behind them. -/
def effectiveKeys (keys : Bytes) : Bytes × Bool :=
  if keys.getLast? = some 0x20 then (keys.dropLast, true) else (keys, false)

def readingMatches (keys : Bytes) (requireTone1 : Bool) (hints : Option Bytes)
    (r : ReadingView) : Bool :=
  !(requireTone1 && r.tone != 1) && decide (keys.length ≤ r.keyseq.length) &&
    r.keyseq.take keys.length == keys && posOk r.posPacked hints keys.length

/-- One entry for each character, from its first matching reading. -/
def pickChar (keys : Bytes) (requireTone1 : Bool) (hints : Option Bytes) (cid : ℕ) : Option Pick :=
  ((t.charReadings cid).zipIdx.find? (fun p => readingMatches keys requireTone1 hints p.1)).map
    (fun p => ⟨cid, p.2, p.1.freq, p.1.tone⟩)

def pickCandidate (p : Pick) : Candidate :=
  .ofBytes ((t.charDataAt p.charId).1.take (kCandidateMaxBytes-1)) p.freq p.tone
    (lt_of_le_of_lt (List.length_take_le _ _) (by decide))

def searchChars (std : DescendingSort) (keys : Bytes) (hints : Option Bytes) (maxResults : ℕ) :
    List Candidate :=
  match keys with
  | [] => []
  | firstByte::_ =>
    if firstByte < kKeyByteMin ∨ kKeyByteMax ≤ firstByte then []
    else
      let (eff, requireTone1) := effectiveKeys keys
      if eff = [] then []
      else
        let picks := (t.charsFrom firstByte).filterMap
          (t.pickChar eff requireTone1 (t.checkedHints hints))
        (std.sort Pick.freq (collect Pick.freq (min maxResults 256) picks)).map t.pickCandidate

def allowedRange (target : ℤ) : ℕ × ℕ :=
  if 0 < target ∧ target ≤ 7 then
    let g := t.groups.getD (target.toNat-1) (0, 0)
    (g.2, u32 (g.2+g.1))
  else if target = -1 then
    let g := t.groups.getD 7 (0, 0)
    ((t.groups.getD 4 (0, 0)).2, u32 (g.2+g.1))
  else (0, t.wordCount)

def matchWord (range : ℕ × ℕ) (keys : Bytes) (hints : Option Bytes) (wid : ℕ) :
    Option Candidate :=
  if wid < range.1 ∨ range.2 ≤ wid then none
  else match t.getWord wid with
    | none => none
    | some w => if t.compositionMatches w keys hints then some (t.wordCandidate w) else none

def search (std : DescendingSort) (keys : Bytes) (hints : Option Bytes) (target : ℤ)
    (maxResults : ℕ) : List Candidate :=
  if ¬ t.loaded ∨ maxResults = 0 then []
  else if target = 1 then t.searchChars std keys hints maxResults
  else match keys with
    | [] => []
    | firstByte::_ =>
      if firstByte < kKeyByteMin ∨ kKeyByteMax ≤ firstByte then []
      else
        let found := ((t.charsFrom firstByte).flatMap t.wordsFrom).filterMap
          (t.matchWord (t.allowedRange target) keys hints)
        std.sort Candidate.freq (collect Candidate.freq maxResults found)

theorem search_length (std : DescendingSort) (keys : Bytes) (hints : Option Bytes) (target : ℤ)
    (maxResults : ℕ) : (t.search std keys hints target maxResults).length ≤ maxResults := by
  have hpool : ∀ {α : Type} (rank : α → ℕ) (cap : ℕ), 0 < cap → ∀ xs : List α,
      (std.sort rank (collect rank cap xs)).length ≤ cap := by
    intro α rank cap hcap xs
    rw [(std.perm rank _).length_eq, collect_length rank cap hcap]
    exact Nat.min_le_left _ _
  unfold search
  split
  · exact Nat.zero_le _
  · rename_i hloaded
    split
    · unfold searchChars
      split
      · exact Nat.zero_le _
      · split
        · exact Nat.zero_le _
        · dsimp only
          split
          · exact Nat.zero_le _
          · rw [List.length_map]
            exact le_trans (hpool _ _ (by omega) _) (Nat.min_le_left _ _)
    · split
      · exact Nat.zero_le _
      · split
        · exact Nat.zero_le _
        · exact hpool _ _ (by omega) _

end CompositionSearcher

end MokyaLora
