import MokyaLora.ImeSearch

/-!
# Commits, multi-tap, and the key handlers

Every handler returns the new state and, where the source does, whether the event
was consumed. `apply` is one call of the public interface.
-/

set_option autoImplicit false

namespace MokyaLora.Ime
open Lib.Fields Lib.Memory

def kSym1ZhShort : Bytes := utf8 '，'

def kSym1EnShort : Bytes := utf8 ','

def kSym2Cycle (mode : InputMode) : List Bytes :=
  match mode with
  | .smartZh => [utf8 '。', utf8 '？', utf8 '！']
  | _ => [utf8 '.', utf8 '?', utf8 '!']

def kSymPickerCols : ℕ := 4

def kSymPickerCells : ℕ := 16

def kSymPickerCell : List Bytes :=
  [utf8 '「', utf8 '」', utf8 '『', utf8 '』', utf8 '（', utf8 '）', utf8 '【', utf8 '】',
    utf8 '，', utf8 '。', utf8 '、', utf8 '；', utf8 '：', utf8 '？', utf8 '！', utf8 '…']

def multitapLabels (kc : Keycode) (mode : InputMode) : List Bytes :=
  if kc = mokyaKeySym2 then kSym2Cycle mode
  else match findKeyEntry kc with
    | none => []
    | some e => if e.digitSlots ≠ [] then e.digitSlots.map utf8 else e.letterSlots.map utf8

def multitapLabel (kc : Keycode) (idx : ℕ) (mode : InputMode) : Option Bytes :=
  (multitapLabels kc mode)[idx]?

def capitalize (word : Bytes) : Bytes :=
  match word with
  | c::cs => if 0x61 ≤ c ∧ c ≤ 0x7A then (c-0x20)::cs else c::cs
  | [] => []

namespace ImeLogic

variable (env : Env) (s : ImeLogic)

def keysDrop (n : ℕ) : ImeLogic :=
  { s with
    keySeq := moveDown s.keySeq n (s.keySeqLen-n+1)
    phonemeHint := moveDown s.phonemeHint n (s.keySeqLen-n)
    keySeqLen := s.keySeqLen-n }

/-- Drops the tone keys at the front; there are at most as many as keys. -/
def stripTones : ℕ → ImeLogic → ImeLogic
  | 0, s => s
  | n+1, s =>
    if 0 < s.keySeqLen ∧ (s.keySeq 0 = 0x20 ∨ s.keySeq 0 = 0x22) then stripTones n (s.keysDrop 1)
    else s

def learn (str : Bytes) (prefixKeys : ℕ) : ImeLogic :=
  if s.mode = .smartZh ∧ 0 < prefixKeys ∧ prefixKeys ≤ s.keySeqLen then
    let sel := if s.selected < s.candidates.length then s.selected else 0
    let tone := match s.candidates[sel]? with
      | some p => p.1.tone
      | none => 0
    let posPacked := lruPackPhonemeHints (s.hints.take prefixKeys)
    let lru := s.lru.upsert (s.keys.take prefixKeys) posPacked (UInt8.ofNat tone) str s.nowMsCache
    { s with lru }
  else s

def consumeKeys (prefixKeys : ℕ) : ImeLogic :=
  let remove := if 0 < prefixKeys ∧ prefixKeys ≤ s.keySeqLen then prefixKeys else s.keySeqLen
  let s := if 0 < remove then s.keysDrop remove else s
  let s := stripTones s.keySeqLen s
  { s with
    keySeq := store s.keySeq s.keySeqLen 0
    candidates := []
    selected := 0
    matchedPrefixBytes := 0
    matchedPrefixKeys := 0
    lpCycle := .none }

def commitPartial (site : CommitSite) (str : Bytes) (prefixKeys : ℕ) : ImeLogic :=
  let s := if str = [] then s
    else ((s.learn str prefixKeys).didCommit str).log env (.commit site str)
  (s.consumeKeys prefixKeys).runSearch env

def commitSelectedCandidate : ImeLogic :=
  let sel := if s.selected < s.candidates.length then s.selected else 0
  match s.candidates[sel]? with
  | none => s
  | some (c, prefixKeys) =>
    let word := c.word.take (kCandidateMaxBytes-1)
    let word := if s.mode = .smartEn ∧ s.enCapitalizeNext then capitalize word else word
    let s' := if s.mode = .smartEn ∧ ¬ s.enLastEndedWithSpace then
        s.emitCommit env .literal [space] else s
    s'.commitPartial env (.candidate s.candidates sel s.mode) word prefixKeys

def multitapClear : ImeLogic :=
  { s with
    multitap := .none
    display := []
    pendingStyle := .none
    matchedPrefixBytes := 0 }

def multitapCommit : ImeLogic :=
  if ¬ s.multitapPending then s
  else
    let kc := s.multitap.keycode
    let site := CommitSite.multitap kc s.multitap.slotIdx s.mode
    let s := (if s.display = [] then s
      else (s.didCommit s.display).log env (.commit site s.display)).multitapClear
    if kc = mokyaKeySym2 ∧ s.mode = .smartEn then s.emitCommit env .literal [space] else s

def skipMissing (kc : Keycode) (mode : InputMode) (slotCount : ℕ) : ℕ → ℕ → ℕ
  | 0, idx => idx
  | n+1, idx =>
    if multitapLabel kc idx mode = none then skipMissing kc mode slotCount n ((idx+1) % slotCount)
    else idx

def multitapPress (kc : Keycode) (slotCount : ℕ) (inverted : Bool) (nowMs : UInt32) : ImeLogic :=
  let s := if s.multitap.keycode = kc then
      { s with multitap := { s.multitap with slotIdx := (s.multitap.slotIdx+1) % slotCount } }
    else
      { s.multitapCommit env with multitap := ⟨kc, 0, slotCount, inverted, s.multitap.lastMs⟩ }
  let idx := skipMissing kc s.mode slotCount s.multitap.slotCount s.multitap.slotIdx
  let s := { s with multitap := { s.multitap with slotIdx := idx, lastMs := nowMs } }
  { s.displaySet ((multitapLabel kc idx s.mode).getD []) with
    pendingStyle := if inverted then .inverted else .prefixBold
    matchedPrefixBytes := 0 }.notifyChanged env

def discardKeys : ImeLogic :=
  { s.keysClear with
    display := []
    pendingStyle := .none
    matchedPrefixBytes := 0
    matchedPrefixKeys := 0 }

def keysChanged : ImeLogic := (s.runSearch env).notifyChanged env

def smartSpace : ImeLogic × Bool :=
  if s.keySeqLen = 0 ∧ ¬ s.multitapPending then
    ((s.emitCommit env .literal [space]).notifyChanged env, true)
  else if s.mode = .smartZh then
    if 0 < s.keySeqLen ∧ s.keySeq (s.keySeqLen-1) ≠ 0x20 ∧ s.keySeqLen < kMaxKeySeq then
      ((s.keyAppend 0x20 kHintAny).keysChanged env, true)
    else (s, true)
  else
    let s := if s.hasCandidates then s.commitSelectedCandidate env
      else if 0 < s.keySeqLen then s.discardKeys
      else s
    ((s.emitCommit env .literal [space]).notifyChanged env, true)

def smartTab : ImeLogic × Bool :=
  if s.hasCandidates then
    let next := (s.page+1)*kPageSize
    let next := if s.candidates.length ≤ next then 0 else next
    ({ s with selected := next }.notifyChanged env, true)
  else (s, false)

def smartDigit (kc : Keycode) (e : KeyEntry) (nowMs : UInt32) : ImeLogic × Bool :=
  let s := if 0 < s.keySeqLen then
      if s.hasCandidates then s.commitSelectedCandidate env else s.discardKeys
    else s
  (s.multitapPress env kc e.digitSlots.length true nowMs, true)

/-- A held key in SmartZh: cycles the phoneme of its last byte or appends one. -/
def smartLongPress (slot : ℕ) (e : KeyEntry) (nowMs : UInt32) : ImeLogic × Bool :=
  let pCount := if e.phonemes.length = 0 then 1 else e.phonemes.length
  match s.lpCycle.byteIndex with
  | some i =>
    if s.lpCycle.slot = some slot ∧ nowMs-s.lpCycle.lastMs < kMultiTapTimeoutMs then
      let idx := (s.lpCycle.phonemeIdx+1) % pCount
      ({ s with
        lpCycle := { s.lpCycle with phonemeIdx := idx, lastMs := nowMs }
        phonemeHint := store s.phonemeHint i (UInt8.ofNat idx) }.keysChanged env, true)
    else appendLong
  | none => appendLong
where
  appendLong : ImeLogic × Bool :=
    if s.keySeqLen < kMaxKeySeq then
      ({ s.keyAppend (slotByte slot) 0 with
        lpCycle := ⟨some s.keySeqLen, some slot, 0, nowMs⟩ }.keysChanged env, true)
    else (s, true)

def smartShortTap (slot : ℕ) : ImeLogic × Bool :=
  if s.keySeqLen < kMaxKeySeq then
    ({ s.keyAppend (slotByte slot) kHintAny with
      lpCycle := { s.lpCycle with byteIndex := none } }.keysChanged env, true)
  else (s, true)

def handleSmart (ev : KeyEvent) : ImeLogic × Bool :=
  if ev.keycode = mokyaKeySpace then s.smartSpace env
  else if ev.keycode = mokyaKeyTab then s.smartTab env
  else match keycodeToInputSlot ev.keycode with
    | none => (s, false)
    | some slot => match kKeyTable[slot]? with
      | none => (s, false)
      | some e =>
        if s.mode = .smartEn ∧ e.digitSlots ≠ [] then s.smartDigit env ev.keycode e ev.nowMs
        else if s.mode = .smartZh ∧ ev.flags &&& keyFlagLongPress ≠ 0 then
          s.smartLongPress env slot e ev.nowMs
        else s.smartShortTap env slot

def directSlots (e : KeyEntry) : ℕ :=
  if e.digitSlots ≠ [] then e.digitSlots.length else e.letterSlots.length

def handleDirect (ev : KeyEvent) : ImeLogic × Bool :=
  if ev.keycode = mokyaKeySpace then
    (((s.multitapCommit env).emitCommit env .literal [space]).notifyChanged env, true)
  else if ev.keycode = mokyaKeyTab then
    (((s.multitapCommit env).emitCommit env .literal [0x09]).notifyChanged env, true)
  else match findKeyEntry ev.keycode with
    | none => (s, false)
    | some e =>
      if directSlots e = 0 then (s, false)
      else (s.multitapPress env ev.keycode (directSlots e) true ev.nowMs, true)

def handleSym1 (pressed : Bool) (nowMs : UInt32) : ImeLogic × Bool :=
  if pressed then
    if s.sym1.down then (s, false)
    else ({ s with sym1 := ⟨true, false, nowMs⟩ }, false)
  else if ¬ s.sym1.down then (s, false)
  else
    let s := { s with sym1 := { s.sym1 with down := false } }
    if s.sym1.longFired then ({ s with sym1 := { s.sym1 with longFired := false } }, true)
    else if s.symPickerOpen then
      ({ s with symPickerOpen := false, symPickerSel := 0 }.notifyChanged env, true)
    else
      let str := match s.mode with
        | .smartZh => kSym1ZhShort
        | .smartEn => text [',', ' ']
        | .direct => kSym1EnShort
      (((s.multitapCommit env).emitCommit env .literal str).notifyChanged env, true)

def handleSym2 (nowMs : UInt32) : ImeLogic × Bool :=
  let slots := (kSym2Cycle s.mode).length
  let s := if s.multitap.keycode = mokyaKeySym2 then s else s.multitapCommit env
  let s := if s.multitap.keycode = mokyaKeySym2 then
      { s with multitap :=
        { s.multitap with slotIdx := (s.multitap.slotIdx+1) % slots, lastMs := nowMs } }
    else { s with multitap := ⟨mokyaKeySym2, 0, slots, true, nowMs⟩ }
  ({ s.displaySet ((kSym2Cycle s.mode).getD s.multitap.slotIdx []) with
    pendingStyle := .inverted
    matchedPrefixBytes := 0 }.notifyChanged env, true)

def compositionClear : ImeLogic :=
  { s.keysClear with
    phonemeHint := zeroed
    display := []
    pendingStyle := .none
    matchedPrefixBytes := 0
    matchedPrefixKeys := 0
    candidates := []
    selected := 0
    lpCycle := .none }

def nextMode : InputMode → InputMode
  | .smartZh => .smartEn
  | .smartEn => .direct
  | .direct => .smartZh

def cycleMode : ImeLogic :=
  let s := if s.multitapPending then s.multitapCommit env
    else if s.hasCandidates then s.commitSelectedCandidate env
    else s
  { s.compositionClear with mode := nextMode s.mode }.notifyChanged env

def navDir (kc : Keycode) : Option NavDir :=
  if kc = mokyaKeyLeft then some .left
  else if kc = mokyaKeyRight then some .right
  else if kc = mokyaKeyUp then some .up
  else if kc = mokyaKeyDown then some .down
  else none

def handleDpad (dir : NavDir) : ImeLogic × Bool :=
  if s.hasCandidates then
    match dir with
    | .left =>
      let sel := (s.selected+s.candidates.length-1) % s.candidates.length
      ({ s with selected := sel }.notifyChanged env, true)
    | .right =>
      let sel := (s.selected+1) % s.candidates.length
      ({ s with selected := sel }.notifyChanged env, true)
    | .up => (s, true)
    | .down => (s, true)
  else (s.log env (.cursorMove dir), env.listener)

def keyRemove : ImeLogic :=
  let len := s.keySeqLen-1
  { s with
    keySeq := store s.keySeq len 0
    keySeqLen := len
    lpCycle := if s.lpCycle.byteIndex.any (fun i => decide (len ≤ i)) then
      { s.lpCycle with byteIndex := none } else s.lpCycle }

def handleDel : ImeLogic × Bool :=
  if s.multitapPending then (s.multitapClear.notifyChanged env, true)
  else if 0 < s.keySeqLen then (s.keyRemove.keysChanged env, true)
  else (s.log env .deleteBefore, true)

def handleOk : ImeLogic × Bool :=
  if s.hasCandidates then ((s.commitSelectedCandidate env).notifyChanged env, true)
  else if s.multitapPending then ((s.multitapCommit env).notifyChanged env, true)
  else ((s.emitCommit env .literal [0x0A]).notifyChanged env, true)

def pickerMove (sel : ℕ) (dir : NavDir) : ℕ :=
  match dir with
  | .left => (sel+kSymPickerCells-1) % kSymPickerCells
  | .right => (sel+1) % kSymPickerCells
  | .up => (sel+kSymPickerCells-kSymPickerCols) % kSymPickerCells
  | .down => (sel+kSymPickerCols) % kSymPickerCells

def handlePicker (kc : Keycode) : ImeLogic × Bool :=
  match navDir kc with
  | some dir => ({ s with symPickerSel := pickerMove s.symPickerSel dir }.notifyChanged env, true)
  | none =>
    let closed := { s with symPickerOpen := false, symPickerSel := 0 }
    if kc = mokyaKeyOk then
      ((closed.emitCommit env (.picker s.symPickerSel)
        (kSymPickerCell.getD s.symPickerSel [])).notifyChanged env, true)
    else (closed.notifyChanged env, true)

def handleInput (ev : KeyEvent) : ImeLogic × Bool :=
  let s := if s.multitapPending ∧ s.multitap.keycode ≠ ev.keycode then s.multitapCommit env else s
  match s.mode with
  | .direct => s.handleDirect env ev
  | _ => s.handleSmart env ev

def stampNow (nowMs : UInt32) : ImeLogic := { s with nowMsCache := nowMs }

def dispatchKey (ev : KeyEvent) : ImeLogic × Bool :=
  if ev.keycode = mokyaKeyBack ∨ ev.keycode = mokyaKeyNone ∨ mokyaKeyLimit ≤ ev.keycode then
    (s, false)
  else if ev.keycode = mokyaKeySym1 then s.handleSym1 env ev.pressed ev.nowMs
  else if ¬ ev.pressed then (s, false)
  else if s.symPickerOpen then s.handlePicker env ev.keycode
  else if ev.keycode = mokyaKeyMode then (s.cycleMode env, true)
  else if ev.keycode = mokyaKeyDel then s.handleDel env
  else match navDir ev.keycode with
    | some dir => s.handleDpad env dir
    | none =>
      if ev.keycode = mokyaKeyOk then s.handleOk env
      else if ev.keycode = mokyaKeySym2 then s.handleSym2 env ev.nowMs
      else s.handleInput env ev

def processKey (ev : KeyEvent) : ImeLogic × Bool := (s.stampNow ev.nowMs).dispatchKey env ev

def expireMultitap (nowMs : UInt32) : ImeLogic × Bool :=
  if s.multitapPending ∧ kMultiTapTimeoutMs ≤ nowMs-s.multitap.lastMs then
    (s.multitapCommit env, true)
  else (s, false)

def openPicker (nowMs : UInt32) : ImeLogic × Bool :=
  if s.sym1.down ∧ ¬ s.sym1.longFired ∧ kLongPressMs ≤ nowMs-s.sym1.pressedAtMs then
    ({ s with
      sym1 := { s.sym1 with longFired := true }
      symPickerOpen := true
      symPickerSel := 0 }, true)
  else (s, false)

def lockCycle (nowMs : UInt32) : ImeLogic :=
  if s.lpCycle.byteIndex ≠ none ∧ kMultiTapTimeoutMs ≤ nowMs-s.lpCycle.lastMs then
    { s with lpCycle := { s.lpCycle with byteIndex := none } }
  else s

def tick (nowMs : UInt32) : ImeLogic × Bool :=
  let (s, expired) := (s.stampNow nowMs).expireMultitap env nowMs
  let (s, opened) := s.openPicker nowMs
  let s := s.lockCycle nowMs
  if expired || opened then (s.notifyChanged env, true) else (s, false)

/-- As constructed, apart from the mode, the cache and the clock. -/
def aborted : ImeLogic :=
  { s.compositionClear with
    multitap := .none
    sym1 := .none
    symPickerOpen := false
    symPickerSel := 0
    enCapitalizeNext := true
    enLastEndedWithSpace := true }

def abort : ImeLogic :=
  if s.hasPending ∨ s.hasCandidates ∨ s.multitapPending ∨ s.symPickerOpen then
    s.aborted.notifyChanged env
  else s.aborted

def clampIndex (idx : ℤ) (count : ℕ) : ℕ := if idx < 0 then 0 else min idx.toNat (count-1)

def setSelected (idx : ℤ) : ImeLogic :=
  if s.candidates = [] ∨ s.selected = clampIndex idx s.candidates.length then s
  else { s with selected := clampIndex idx s.candidates.length }.notifyChanged env

def loadLru (buf : Bytes) : ImeLogic × Bool :=
  ({ s with lru := (s.lru.deserialize buf).1 }, (s.lru.deserialize buf).2)

end ImeLogic

inductive Call where
  | processKey (ev : KeyEvent)
  | tick (nowMs : UInt32)
  | abort
  | setSelected (idx : ℤ)
  | setTextContext (prev : Bytes)
  | loadLru (buf : Bytes)

def ImeLogic.apply (env : Env) (s : ImeLogic) : Call → ImeLogic
  | .processKey ev => (s.processKey env ev).1
  | .tick nowMs => (s.tick env nowMs).1
  | .abort => s.abort env
  | .setSelected idx => s.setSelected env idx
  | .setTextContext prev => s.setTextContext prev
  | .loadLru buf => (s.loadLru buf).1

/-- The state after a sequence of calls on a new object. -/
def ImeLogic.run (env : Env) (calls : List Call) : ImeLogic :=
  calls.foldl (fun s c => s.apply env c) .init

end MokyaLora.Ime
