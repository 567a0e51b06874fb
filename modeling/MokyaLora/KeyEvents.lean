import MokyaLora.Lib.Bits
import MokyaLora.KeyTable

/-!
# The queue of key events and the mirror of the pressed keys

The keypad task and the injecting task push into one queue. A bitmap says which keys
the hardware holds; an injected press of such a key is rejected.
-/

set_option autoImplicit false

namespace MokyaLora.Keypad
open Lib.Bits
open MokyaLora.Ime (Keycode mokyaKeyLimit)

def keyEventQueueDepth : ℕ := 16
def keyEventViewQueueDepth : ℕ := 16
def keyEventLogDepth : ℕ := 16

inductive KeySource where
  | hw
  | inject
  deriving DecidableEq

structure KeyEvent where
  keycode : Keycode
  pressed : Bool
  source : KeySource
  flags : UInt8
  deriving DecidableEq

inductive KeyEventResult where
  | ok
  | errNotReady
  | errQueueFull
  | errBusy
  | errBadKey
  deriving DecidableEq

/-- A queue is `none` where its creation failed. The last field is history that no code
reads: the events offered to the queue, with what came of each. -/
structure KeyEvents where
  queue : Option (List KeyEvent)
  viewQueue : Option (List KeyEvent)
  hwPressed : BitVec 64
  pushed : UInt32
  dropped : UInt32
  rejected : UInt32
  log : List UInt8
  logIdx : UInt32
  offered : List (KeyEvent × KeyEventResult)
  deriving DecidableEq

def keycodeValid (k : Keycode) : Prop := 1 ≤ k ∧ k < mokyaKeyLimit

instance (k : Keycode) : Decidable (keycodeValid k) :=
  inferInstanceAs (Decidable (_ ∧ _))

def keycodeBit (k : Keycode) : BitVec 64 := bit k.toNat

def xQueueSend (depth : ℕ) (q : List KeyEvent) (ev : KeyEvent) : Option (List KeyEvent) :=
  if q.length < depth then some (q++[ev]) else none

namespace KeyEvents

def init (queueCreated viewCreated : Bool) : KeyEvents where
  queue := if queueCreated then some [] else none
  viewQueue := if viewCreated then some [] else none
  hwPressed := 0
  pushed := 0
  dropped := 0
  rejected := 0
  log := List.replicate keyEventLogDepth 0
  logIdx := 0
  offered := []

variable (s : KeyEvents)

def hwPressedSet (keycode : Keycode) (pressed : Bool) : KeyEvents :=
  { s with hwPressed :=
      if pressed then s.hwPressed ||| keycodeBit keycode
      else s.hwPressed &&& ~~~keycodeBit keycode }

def hwPressedTest (keycode : Keycode) : Bool := decide (s.hwPressed &&& keycodeBit keycode ≠ 0)

def logByte (ev : KeyEvent) : UInt8 := (if ev.pressed then 0x80 else 0) ||| (ev.keycode &&& 0x7F)

/-- The event stands in the queue `q`; it goes to the view queue if there is room, and
into the log. -/
def accept (q : List KeyEvent) (ev : KeyEvent) : KeyEvents :=
  { s with
    queue := some q
    viewQueue := s.viewQueue.map (fun v => (xQueueSend keyEventViewQueueDepth v ev).getD v)
    log := s.log.set (s.logIdx.toNat % keyEventLogDepth) (logByte ev)
    logIdx := s.logIdx+1
    pushed := s.pushed+1 }

def enqueue (ev : KeyEvent) : KeyEvents × KeyEventResult :=
  match s.queue with
  | none => (s, .errNotReady)
  | some q =>
    match xQueueSend keyEventQueueDepth q ev with
    | none => ({ s with dropped := s.dropped+1 }, .errQueueFull)
    | some q' => (s.accept q' ev, .ok)

def pushLocked (ev : KeyEvent) : KeyEvents × KeyEventResult :=
  ({ (s.enqueue ev).1 with offered := s.offered++[(ev, (s.enqueue ev).2)] }, (s.enqueue ev).2)

def hwEvent (keycode : Keycode) (pressed : Bool) (flags : UInt8) : KeyEvent :=
  ⟨keycode, pressed, .hw, flags &&& 0x3F⟩

def injectEvent (keycode : Keycode) (pressed : Bool) (flags : UInt8) : KeyEvent :=
  ⟨keycode, pressed, .inject, flags &&& 0x3F⟩

/-- The bitmap is updated before the event is enqueued. -/
def pushHwFlags (keycode : Keycode) (pressed : Bool) (flags : UInt8) :
    KeyEvents × KeyEventResult :=
  if keycodeValid keycode then
    (s.hwPressedSet keycode pressed).pushLocked (hwEvent keycode pressed flags)
  else (s, .errBadKey)

def pushHw (keycode : Keycode) (pressed : Bool) : KeyEvents × KeyEventResult :=
  s.pushHwFlags keycode pressed 0

/-- Only a press is rejected; a release goes through. -/
def pushInjectFlags (keycode : Keycode) (pressed : Bool) (flags : UInt8) :
    KeyEvents × KeyEventResult :=
  if keycodeValid keycode then
    if pressed && s.hwPressedTest keycode then
      ({ s with rejected := s.rejected+1 }, .errBusy)
    else s.pushLocked (injectEvent keycode pressed flags)
  else (s, .errBadKey)

def pushInject (keycode : Keycode) (pressed : Bool) : KeyEvents × KeyEventResult :=
  s.pushInjectFlags keycode pressed 0

def pop : KeyEvents × Option KeyEvent :=
  match s.queue with
  | some (ev::q) => ({ s with queue := some q }, some ev)
  | _ => (s, none)

def viewPop : KeyEvents × Option KeyEvent :=
  match s.viewQueue with
  | some (ev::v) => ({ s with viewQueue := some v }, some ev)
  | _ => (s, none)

def holds (keycode : Keycode) : Bool := s.hwPressed.getLsbD keycode.toNat

def strokes (keycode : Keycode) : List (Bool × UInt8) :=
  s.offered.filterMap (fun e =>
    if e.1.keycode = keycode ∧ e.1.source = .hw then some (e.1.pressed, e.1.flags) else none)

def emitted (keycode : Keycode) : List (Bool × UInt8) :=
  s.offered.filterMap (fun e =>
    if e.1.keycode = keycode ∧ e.1.source = .hw ∧ e.2 = .ok then some (e.1.pressed, e.1.flags)
    else none)

end KeyEvents

namespace KeyEvents

variable (s : KeyEvents) (kc k : Keycode) (pressed : Bool) (flags : UInt8) (ev : KeyEvent)

theorem valid_lt (h : keycodeValid k) : k.toNat < 64 := by
  have hlt := UInt8.lt_iff_toNat_lt.mp h.2
  exact hlt

theorem hw_pressed_set_eq : (s.hwPressedSet kc pressed).hwPressed =
    put s.hwPressed kc.toNat pressed := rfl

theorem hw_pressed_test_eq (h : keycodeValid k) : s.hwPressedTest k = s.holds k := by
  rw [hwPressedTest, keycodeBit, holds, Bool.eq_iff_iff, decide_eq_true_iff]
  exact and_bit_ne_zero s.hwPressed k.toNat (valid_lt k h)

theorem set_holds (h : keycodeValid k) :
    (s.hwPressedSet kc pressed).holds k = if k = kc then pressed else s.holds k := by
  rw [holds, hw_pressed_set_eq, put_get _ _ _ _ (valid_lt k h)]
  by_cases heq : k = kc
  · rw [if_pos (congrArg UInt8.toNat heq), if_pos heq]
  · rw [if_neg (fun hk => heq (UInt8.toNat_inj.mp hk)), if_neg heq]
    rfl

theorem enqueue_bitmap : (s.enqueue ev).1.hwPressed = s.hwPressed := by
  rw [enqueue]
  split
  · rfl
  · split <;> rfl

theorem push_holds : (s.pushLocked ev).1.holds k = s.holds k :=
  congrArg (fun m : BitVec 64 => m.getLsbD k.toNat) (s.enqueue_bitmap ev)

theorem push_offered : (s.pushLocked ev).1.offered =
    s.offered++[(ev, (s.pushLocked ev).2)] := rfl

theorem push_strokes : (s.pushLocked ev).1.strokes k = s.strokes k++
    if ev.keycode = k ∧ ev.source = .hw then [(ev.pressed, ev.flags)] else [] := by
  rw [strokes, push_offered, List.filterMap_append, strokes]
  by_cases h : ev.keycode = k ∧ ev.source = .hw
  · rw [if_pos h, List.filterMap_cons_some (by exact if_pos h), List.filterMap_nil]
  · rw [if_neg h, List.filterMap_cons_none (by exact if_neg h), List.filterMap_nil]

theorem hw_holds (hkc : keycodeValid kc) (hk : keycodeValid k) :
    (s.pushHwFlags kc pressed flags).1.holds k = if k = kc then pressed else s.holds k := by
  rw [pushHwFlags, if_pos hkc, push_holds, set_holds s kc k pressed hk]

theorem hw_strokes (hkc : keycodeValid kc) : (s.pushHwFlags kc pressed flags).1.strokes k =
    s.strokes k++if kc = k then [(pressed, flags &&& 0x3F)] else [] := by
  rw [pushHwFlags, if_pos hkc, push_strokes, hwEvent]
  by_cases h : kc = k
  · rw [if_pos ⟨h, rfl⟩, if_pos h]
    rfl
  · rw [if_neg (fun hand => h hand.1), if_neg h]
    rfl

theorem inject_holds : (s.pushInjectFlags kc pressed flags).1.holds k = s.holds k := by
  rw [pushInjectFlags]
  split
  · split
    · rfl
    · exact push_holds s k _
  · rfl

theorem inject_strokes : (s.pushInjectFlags kc pressed flags).1.strokes k = s.strokes k := by
  rw [pushInjectFlags]
  split
  · split
    · rfl
    · rw [push_strokes, injectEvent, if_neg (fun h => KeySource.noConfusion h.2), List.append_nil]
  · rfl

theorem pop_holds : s.pop.1.holds k = s.holds k := by
  rw [pop]
  split <;> rfl

theorem pop_offered : s.pop.1.offered = s.offered := by
  rw [pop]
  split <;> rfl

theorem view_pop_holds : s.viewPop.1.holds k = s.holds k := by
  rw [viewPop]
  split <;> rfl

theorem view_pop_offered : s.viewPop.1.offered = s.offered := by
  rw [viewPop]
  split <;> rfl

theorem inject_busy (hk : keycodeValid k) :
    (s.pushInjectFlags k true flags).2 = .errBusy ↔ s.holds k = true := by
  rw [pushInjectFlags, if_pos hk, hw_pressed_test_eq s k hk, Bool.true_and]
  by_cases h : s.holds k = true
  · rw [if_pos h]
    exact iff_of_true rfl h
  · rw [if_neg h]
    apply iff_of_false _ h
    rw [pushLocked, enqueue]
    split
    · exact KeyEventResult.noConfusion
    · split <;> exact KeyEventResult.noConfusion

end KeyEvents

end MokyaLora.Keypad
