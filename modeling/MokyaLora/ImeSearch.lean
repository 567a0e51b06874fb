import MokyaLora.ImeState
import Mathlib.Data.List.Sort

/-!
# Candidate search and the pending display
-/

set_option autoImplicit false

namespace MokyaLora.Ime
open Lib.Fields Lib.Memory

/-- 34 after the key of the third and fourth tone, 1 before a first-tone marker,
0 without a tone. -/
def extractToneIntent (keys : Bytes) (prefixLen : ℕ) : ℕ :=
  if prefixLen = 0 then 0
  else if keys[prefixLen-1]? = some 0x22 then 34
  else if keys[prefixLen]? = some 0x20 then 1
  else 0

def toneMatches (c : Candidate) (intent : ℕ) : Bool :=
  if intent = 0 then true
  else if intent = 1 then c.tone == 1
  else if intent = 34 then c.tone == 3 || c.tone == 4
  else c.tone == intent

/-- 0 and 1 for a single and a longer word of the right tone, 2 and 3 else. -/
def toneTier (c : Candidate) (intent : ℕ) : ℕ :=
  (if utf8CharCount c.word = 1 then 0 else 1)+(if toneMatches c intent then 0 else 2)

/-- `stable_sort` by tier, then by descending frequency. -/
def toneSort (intent : ℕ) (cs : List Candidate) : List Candidate :=
  cs.insertionSort (fun a b => toneTier a intent < toneTier b intent ∨
    toneTier a intent = toneTier b intent ∧ b.freq ≤ a.freq)

def toneFilter (intent : ℕ) (cs : List Candidate) : List Candidate :=
  if intent ≠ 0 ∧ cs.filter (fun c => toneTier c intent < 2) ≠ [] then
    cs.filter (fun c => toneTier c intent < 2)
  else cs

def listed (cands : List (Candidate × ℕ)) (c : Candidate) : Bool :=
  cands.any (fun p => decide (p.1.word = c.word))

def mergeCandidates (cands : List (Candidate × ℕ)) (new : List Candidate) (prefixKeys : ℕ) :
    List (Candidate × ℕ) :=
  new.foldl (fun cands c =>
    if cands.length < kMaxCandidates ∧ ¬ listed cands c then cands++[(c, prefixKeys)] else cands)
    cands

def strippedKeys (keys : Bytes) : List (UInt8 × ℕ) :=
  keys.zipIdx.filter (fun p => p.1 != 0x20)

/-- The length skipped when a first-tone marker directly follows another tone
key at the end. -/
def skipLength (keys : Bytes) : Option ℕ :=
  match (strippedKeys keys).getLast? with
  | some (b, i) =>
    if keys.getLast? = some 0x20 ∧ 2 ≤ (strippedKeys keys).length ∧ (b = 0x22 ∨ b = 0x23) ∧
        i+1 = keys.length-1 then some (strippedKeys keys).length
    else none
  | none => none

/-- The searches from prefix length `slen` down, with the candidates collected
and the longest matched prefix. -/
def legacyLoop (searcher : TrieSearch) (keys : Bytes) :
    ℕ → List (Candidate × ℕ) × ℕ → List (Candidate × ℕ) × ℕ
  | 0, acc => acc
  | slen+1, acc =>
    if kMaxCandidates ≤ acc.1.length then acc
    else if skipLength keys = some (slen+1) then legacyLoop searcher keys slen acc
    else
      let found := searcher.search (((strippedKeys keys).take (slen+1)).map Prod.fst) kMaxCandidates
      match found, (strippedKeys keys)[slen]? with
      | c::cs, some (_, i) =>
        let intent := extractToneIntent keys (i+1)
        legacyLoop searcher keys slen
          (mergeCandidates acc.1 (toneFilter intent (toneSort intent (c::cs))) (i+1),
            if acc.2 = 0 then i+1 else acc.2)
      | _, _ => legacyLoop searcher keys slen acc

def keyPieces (isZh : Bool) (i : ℕ) (b hint : UInt8) : List Bytes :=
  let separator := if isZh ∧ 0 < i then [text [',', ' ']] else []
  if b = 0x20 then separator++[utf8 'ˉ']
  else match (byteSlot b).bind (fun slot => kKeyTable[slot]?) with
    | none => []
    | some e =>
      if isZh then
        if hint ≤ 2 then
          separator++((e.phonemes[min hint.toNat (e.phonemes.length-1)]?).map utf8).toList
        else separator++e.phonemes.map utf8
      else match e.letterSlots, e.digitSlots with
        | c::_, _ => [utf8 c]
        | [], c::_ => [utf8 c]
        | [], [] => []

/-- A string that would fill the display is left out. -/
def displayAppend (display piece : Bytes) : Bytes :=
  if kMaxDisplayBytes ≤ display.length+piece.length then display else display++piece

namespace ImeLogic

variable (env : Env) (s : ImeLogic)

def rebuildFrom (i : ℕ) : List (UInt8 × UInt8) → Bytes × ℕ → Bytes × ℕ
  | [], acc => acc
  | (b, hint)::rest, (display, matched) =>
    rebuildFrom (i+1) rest
      ((keyPieces (s.mode == .smartZh) i b hint).foldl displayAppend display,
        if i = s.matchedPrefixKeys then display.length else matched)

def rebuildDisplaySmart : ImeLogic :=
  let (display, matched) := s.rebuildFrom 0 (s.keys.zip s.hints) ([], 0)
  { s with
    display := display
    matchedPrefixBytes := if s.keySeqLen ≤ s.matchedPrefixKeys then display.length else matched
    pendingStyle := if s.keySeqLen = 0 then .none else .prefixBold }

def activeSearcher : Option TrieSearch :=
  match s.mode with
  | .smartZh => env.zhSearcher
  | .smartEn => env.enSearcher
  | .direct => none

def runSearchV2Legacy : ImeLogic :=
  match s.activeSearcher env with
  | none => s.rebuildDisplaySmart
  | some searcher =>
    let (cands, matched) := legacyLoop searcher s.keys (strippedKeys s.keys).length ([], 0)
    { s with candidates := cands, matchedPrefixKeys := matched }.rebuildDisplaySmart

def adjacentBucket (cs : CompositionSearch) (cands : List (Candidate × ℕ)) (target : ℤ) :
    List (Candidate × ℕ) :=
  if kMaxCandidates ≤ cands.length ∨ target < 1 ∨ 4 < target then cands
  else mergeCandidates cands (cs.search s.keys s.hints target kMaxCandidates) s.keySeqLen

/-- The number of syllables that selects the length bucket. -/
def positions (cs : CompositionSearch) : ℕ :=
  if cs.countSyllables s.keys = 0 then countPositions s.keys else cs.countSyllables s.keys

def runSearchV4 (cs : CompositionSearch) : ImeLogic :=
  let p := s.positions cs
  if p = 0 then s
  else if p ≤ 4 then
    let primary := (cs.search s.keys s.hints p kMaxCandidates).map (fun c => (c, s.keySeqLen))
    { s with
      candidates :=
        [(p : ℤ)+1, (p : ℤ)-1, (p : ℤ)+2, (p : ℤ)-2].foldl (s.adjacentBucket cs) primary
      matchedPrefixKeys := s.keySeqLen }
  else
    let chars := (cs.search (s.keys.take 1) (s.hints.take 1) 1 kMaxCandidates).map (fun c => (c, 1))
    let phrases :=
      if chars.length < kMaxCandidates then
        (cs.search s.keys s.hints (-1) (kMaxCandidates-chars.length)).map
          (fun c => (c, s.keySeqLen))
      else []
    { s with
      candidates := chars++phrases
      matchedPrefixKeys := if chars ≠ [] then 1 else if phrases ≠ [] then s.keySeqLen else 0 }

def prependLruCandidates : ImeLogic :=
  if s.mode ≠ .smartZh ∨ s.keySeqLen = 0 then s
  else
    let hits := s.lru.lookup s.keys (some s.hints) kMaxCandidates
    if hits = [] then s
    else { s with
      candidates := hits++(s.candidates.filter (fun p => !listed hits p.1)).take
        (kMaxCandidates-hits.length)
      selected := 0 }

def v4Searcher : Option CompositionSearch :=
  if s.mode = .smartZh then env.compositionSearcher else none

def searchStart : ImeLogic :=
  { s with candidates := [], selected := 0, matchedPrefixBytes := 0, matchedPrefixKeys := 0 }

def runSearch : ImeLogic :=
  let s := s.searchStart
  if s.keySeqLen = 0 then s.rebuildDisplaySmart
  else match s.v4Searcher env with
    | some cs => (s.runSearchV4 cs).prependLruCandidates.rebuildDisplaySmart
    | none => (s.runSearchV2Legacy env).prependLruCandidates

end ImeLogic

end MokyaLora.Ime
