import MokyaLora.KeyTable
import MokyaLora.LruCache
import MokyaLora.Lib.Memory

/-!
# The state of the input method and its listener

`ImeLogic` holds the members of the class. What the listener is called with is
logged, and a commit is logged with the variables that its call site reads; no
function reads the log. The searchers are given by what they return: any
dictionary is a pair of functions that respect the size of the caller's array.
-/

set_option autoImplicit false

namespace MokyaLora.Ime
open Lib.Fields Lib.Memory

def kMultiTapTimeoutMs : UInt32 := 800

def kLongPressMs : UInt32 := 500

def kPageSize : ℕ := 5

def kMaxCandidates : ℕ := 100

def kMaxKeySeq : ℕ := 64

def kMaxDisplayBytes : ℕ := 256

structure TrieSearch where
  search : Bytes → ℕ → List Candidate
  atMost : ∀ key maxResults, (search key maxResults).length ≤ maxResults

def TrieSearch.ofDictionary (t : TrieSearcher) : TrieSearch := ⟨t.search, t.search_length⟩

/-- `search` takes the keys, their hints, the target character count and the
capacity of the output. -/
structure CompositionSearch where
  search : Bytes → Bytes → ℤ → ℕ → List Candidate
  countSyllables : Bytes → ℕ
  atMost : ∀ keys hints target maxResults,
    (search keys hints target maxResults).length ≤ maxResults

structure Env where
  zhSearcher : Option TrieSearch
  enSearcher : Option TrieSearch
  compositionSearcher : Option CompositionSearch
  listener : Bool

inductive NavDir where
  | left
  | right
  | up
  | down
  deriving DecidableEq

inductive PendingStyle where
  | none
  | prefixBold
  | inverted
  deriving DecidableEq

structure KeyEvent where
  keycode : Keycode
  pressed : Bool
  nowMs : UInt32
  flags : UInt8
  deriving DecidableEq

structure MultiTapState where
  keycode : Keycode
  slotIdx : ℕ
  slotCount : ℕ
  inverted : Bool
  lastMs : UInt32
  deriving DecidableEq

def MultiTapState.none : MultiTapState := ⟨mokyaKeyNone, 0, 0, false, 0⟩

structure Sym1State where
  down : Bool
  longFired : Bool
  pressedAtMs : UInt32
  deriving DecidableEq

def Sym1State.none : Sym1State := ⟨false, false, 0⟩

/-- `byteIndex` and `slot` are absent where the code has -1. -/
structure LpCycleState where
  byteIndex : Option ℕ
  slot : Option ℕ
  phonemeIdx : ℕ
  lastMs : UInt32
  deriving DecidableEq

def LpCycleState.none : LpCycleState := ⟨.none, .none, 0, 0⟩

/-- Where `on_commit` is called from, with what the call site reads there. -/
inductive CommitSite where
  | literal
  | picker (sel : ℕ)
  | candidate (shown : List (Candidate × ℕ)) (sel : ℕ) (mode : InputMode)
  | multitap (kc : Keycode) (slotIdx : ℕ) (mode : InputMode)
  deriving DecidableEq

inductive Event where
  | commit (site : CommitSite) (utf8 : Bytes)
  | cursorMove (dir : NavDir)
  | deleteBefore
  | compositionChanged
  deriving DecidableEq

/-- `candidates` pairs each candidate with its prefix length; its length is
`cand_count_`. -/
structure ImeLogic where
  mode : InputMode
  keySeq : Buffer
  keySeqLen : ℕ
  phonemeHint : Buffer
  display : Bytes
  pendingStyle : PendingStyle
  matchedPrefixBytes : ℕ
  matchedPrefixKeys : ℕ
  candidates : List (Candidate × ℕ)
  selected : ℕ
  multitap : MultiTapState
  sym1 : Sym1State
  symPickerOpen : Bool
  symPickerSel : ℕ
  lpCycle : LpCycleState
  enCapitalizeNext : Bool
  enLastEndedWithSpace : Bool
  lru : LruCache
  nowMsCache : UInt32
  events : List Event

namespace ImeLogic

def init : ImeLogic where
  mode := .smartZh
  keySeq := zeroed
  keySeqLen := 0
  phonemeHint := zeroed
  display := []
  pendingStyle := .none
  matchedPrefixBytes := 0
  matchedPrefixKeys := 0
  candidates := []
  selected := 0
  multitap := .none
  sym1 := .none
  symPickerOpen := false
  symPickerSel := 0
  lpCycle := .none
  enCapitalizeNext := true
  enLastEndedWithSpace := true
  lru := .empty
  nowMsCache := 0
  events := []

variable (env : Env) (s : ImeLogic)

def keys : Bytes := bytes s.keySeq s.keySeqLen

def hints : Bytes := bytes s.phonemeHint s.keySeqLen

def hasCandidates : Bool := !s.candidates.isEmpty

def hasPending : Bool := !s.display.isEmpty

def page : ℕ := if s.candidates = [] then 0 else s.selected/kPageSize

def multitapPending : Prop := s.multitap.keycode ≠ mokyaKeyNone

instance : Decidable s.multitapPending := by
  unfold multitapPending
  infer_instance

def log (e : Event) : ImeLogic := if env.listener then { s with events := s.events++[e] } else s

def notifyChanged : ImeLogic := s.log env .compositionChanged

def displaySet (label : Bytes) : ImeLogic := { s with display := label.take kMaxDisplayBytes }

def keysClear : ImeLogic := { s with keySeq := store s.keySeq 0 0, keySeqLen := 0 }

def keyAppend (key hint : UInt8) : ImeLogic :=
  { s with
    phonemeHint := store s.phonemeHint s.keySeqLen hint
    keySeq := store (store s.keySeq s.keySeqLen key) (s.keySeqLen+1) 0
    keySeqLen := s.keySeqLen+1 }

end ImeLogic

def space : UInt8 := 0x20

def ideographicSpace : Bytes := [0xE3, 0x80, 0x80]

def endsWithSpace (s : Bytes) : Bool :=
  s.getLast? == some space || ideographicSpace.isSuffixOf s

/-- The string up to its last byte that is no space, at least its first byte. -/
def trimSpaces (s : Bytes) : Bytes :=
  match s with
  | [] => []
  | c::cs => c::cs.rdropWhile (fun b => b == space)

def endsSentence (s : Bytes) : Bool :=
  (trimSpaces s).getLast?.any (fun c => c == 0x2E || c == 0x3F || c == 0x21) ||
  [utf8 '。', utf8 '？', utf8 '！'].any (fun p => p.isSuffixOf (trimSpaces s))

namespace ImeLogic

variable (env : Env) (s : ImeLogic)

def didCommit (str : Bytes) : ImeLogic :=
  if str = [] then s
  else
    let s := { s with enLastEndedWithSpace := endsWithSpace str }
    if str = [space] ∨ str = ideographicSpace then s
    else { s with enCapitalizeNext := endsSentence str }

def emitCommit (site : CommitSite) (str : Bytes) : ImeLogic :=
  if str = [] then s else (s.didCommit str).log env (.commit site str)

def setTextContext (prev : Bytes) : ImeLogic :=
  if prev = [] then { s with enCapitalizeNext := true, enLastEndedWithSpace := true }
  else { s with
    enLastEndedWithSpace := endsWithSpace prev
    enCapitalizeNext := endsSentence prev }

end ImeLogic

end MokyaLora.Ime
