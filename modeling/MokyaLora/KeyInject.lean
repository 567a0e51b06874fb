import MokyaLora.KeyEvents
import MokyaLora.Lib.Schedule
import Mathlib.Data.List.Sort

/-!
# Keys injected over SWD

A host writes key events into a ring in the memory of Core 1 (`queue_events` of
`ime_text_test.py`) while `key_inject_task_fn` drains it (`key_inject.c`). Both run at
once, so each access of either side to the shared buffer is a step of its own. The host
sorts the bytes of a batch by address before it writes them. The events queued and the
events taken are kept as logs which no step reads.
-/

set_option autoImplicit false

namespace MokyaLora.KeyInject
open MokyaLora.Keypad
open MokyaLora.Ime (Keycode)

def keyInjectMagic : UInt32 := 0x4B45494A

def keyInjectRingEvents : ℕ := 32

def keyInjectEventSize : ℕ := 2

def keyInjectModeSwd : UInt8 := 0

def keyInjectModeRtt : UInt8 := 1

structure KeyInjectBuf where
  magic : UInt32
  producerIdx : UInt32
  consumerIdx : UInt32
  pushed : UInt32
  rejected : UInt32
  events : ℕ → UInt8

structure Event where
  ev : UInt8
  flags : UInt8
  deriving DecidableEq, Repr

def Event.kc (e : Event) : Keycode := e.ev &&& 0x7F

def Event.pressed (e : Event) : Bool := decide (e.ev &&& 0x80 ≠ 0)

def Event.Valid (e : Event) : Prop := 0x01 ≤ e.kc ∧ e.kc < 0x40

instance (e : Event) : Decidable e.Valid := inferInstanceAs (Decidable (_ ∧ _))

def forward (keys : KeyEvents) (e : Event) : KeyEvents × Bool :=
  if e.Valid then
    let r := keys.pushInjectFlags e.kc e.pressed e.flags
    (r.1, r.2 == .ok)
  else (keys, false)

/-- Where `key_inject_task_fn` stands; `boot` counts the stores it has done of its five at
the start. -/
inductive TaskPc where
  | boot (k : ℕ)
  | top
  | selected
  | loop (prod : UInt32)
  | draining (prod : UInt32)
  | slot (prod : UInt32) (idx : ℕ)
  | key (prod : UInt32) (idx : ℕ) (ev : UInt8)
  | event (prod : UInt32) (e : Event)
  | forwarded (prod : UInt32) (ok : Bool)
  | counted (prod : UInt32)

def KeyInjectBuf.count (b : KeyInjectBuf) (ok : Bool) : KeyInjectBuf :=
  if ok then { b with pushed := b.pushed+1 } else { b with rejected := b.rejected+1 }

/-- The start of the task; the magic comes last. -/
def KeyInjectBuf.boot (b : KeyInjectBuf) : ℕ → KeyInjectBuf × TaskPc
  | 0 => ({ b with producerIdx := 0 }, .boot 1)
  | 1 => ({ b with consumerIdx := 0 }, .boot 2)
  | 2 => ({ b with pushed := 0 }, .boot 3)
  | 3 => ({ b with rejected := 0 }, .boot 4)
  | _ => ({ b with magic := keyInjectMagic }, .top)

def chunkMax : ℤ := keyInjectRingEvents-2

def writes : ℕ → List Event → List (ℕ × UInt8)
  | _, [] => []
  | producer, e::es =>
    let slot := producer % keyInjectRingEvents
    (slot*keyInjectEventSize, e.ev)::(slot*keyInjectEventSize+1, e.flags)::writes (producer+1) es

/-- The order of Python's tuples. -/
def TupleLe (x y : ℕ × UInt8) : Prop := x.1 < y.1 ∨ x.1 = y.1 ∧ x.2 ≤ y.2

instance : DecidableRel TupleLe := fun _ _ => inferInstanceAs (Decidable (_ ∨ _))

/-- The loop of `write_u8_many` over the sorted operations: contiguous bytes are collected
and each run is written at once. -/
def runs (runStart : ℕ) (runData : List UInt8) : List (ℕ × UInt8) → List (ℕ × List UInt8)
  | [] => [(runStart, runData)]
  | (addr, byte)::ops =>
    if addr = runStart+runData.length then runs runStart (runData++[byte]) ops
    else (runStart, runData)::runs addr [byte] ops

def writeU8Many (ops : List (ℕ × UInt8)) : List (ℕ × List UInt8) :=
  match ops.insertionSort TupleLe with
  | [] => []
  | (addr, byte)::ops => runs addr [byte] ops

def memoryWrite8 : ℕ → List UInt8 → List (ℕ × UInt8)
  | _, [] => []
  | addr, byte::data => (addr, byte)::memoryWrite8 (addr+1) data

/-- Where `queue_events` stands. What it has read are Python's unbounded integers. -/
inductive HostPc where
  | offline
  | idle
  | queue (evs : List Event)
  | producerRead (evs : List Event) (producer : ℕ)
  | consumerRead (evs : List Event) (producer consumer : ℕ)
  | writing (ops : List (ℕ × UInt8)) (batch evs : List Event) (producer : ℕ)
  | queued
  | waiting (targetProducer : ℕ)

def takeCount (evs : List Event) (producer consumer : ℕ) : ℕ :=
  (min (chunkMax-((producer : ℤ)-consumer)) evs.length).toNat

structure System where
  buf : KeyInjectBuf
  mode : UInt8
  keys : KeyEvents
  task : TaskPc
  host : HostPc
  queued : List Event
  taken : List (Event × Bool)

/-- A step of either side, a call of `queue_events`, the deadline at its end, a write of
`g_key_inject_mode`, or anything that other tasks do with the key events. -/
inductive Act where
  | task
  | host
  | queueEvents (evs : List Event)
  | timeout
  | setKeyInjectMode (mode : UInt8)
  | others (keys : KeyEvents)

def System.taskStep (s : System) : System :=
  match s.task with
  | .boot k => { s with buf := (s.buf.boot k).1, task := (s.buf.boot k).2 }
  | .top => if s.mode ≠ keyInjectModeSwd then s else { s with task := .selected }
  | .selected => { s with task := .loop s.buf.producerIdx }
  | .loop prod =>
    if s.buf.consumerIdx ≠ prod then { s with task := .draining prod } else { s with task := .top }
  | .draining prod =>
    { s with task := .slot prod (s.buf.consumerIdx.toNat % keyInjectRingEvents) }
  | .slot prod idx => { s with task := .key prod idx (s.buf.events (idx*2)) }
  | .key prod idx ev => { s with task := .event prod ⟨ev, s.buf.events (idx*2+1)⟩ }
  | .event prod e =>
    { s with
      keys := (forward s.keys e).1
      task := .forwarded prod (forward s.keys e).2
      taken := s.taken++[(e, (forward s.keys e).2)] }
  | .forwarded prod ok => { s with buf := s.buf.count ok, task := .counted prod }
  | .counted prod =>
    { s with
      buf := { s.buf with consumerIdx := s.buf.consumerIdx+1 }
      task := .loop prod }

def System.hostStep (s : System) : Option System :=
  match s.host with
  | .offline => if s.buf.magic = keyInjectMagic then some { s with host := .idle } else some s
  | .idle => none
  | .queue [] => some { s with host := .queued }
  | .queue (e::evs) => some { s with host := .producerRead (e::evs) s.buf.producerIdx.toNat }
  | .producerRead evs producer =>
    some { s with host := .consumerRead evs producer s.buf.consumerIdx.toNat }
  | .consumerRead evs producer consumer =>
    if chunkMax ≤ (producer : ℤ)-consumer then
      some { s with host := .consumerRead evs producer s.buf.consumerIdx.toNat }
    else
      let take := takeCount evs producer consumer
      let ops := (writeU8Many (writes producer (evs.take take))).flatMap
        (fun run => memoryWrite8 run.1 run.2)
      some { s with host := .writing ops (evs.take take) (evs.drop take) (producer+take) }
  | .writing ((addr, byte)::ops) batch evs producer =>
    some { s with
      buf := { s.buf with events := Function.update s.buf.events addr byte }
      host := .writing ops batch evs producer }
  | .writing [] batch evs producer =>
    some { s with
      buf := { s.buf with producerIdx := UInt32.ofNat producer }
      host := .queue evs
      queued := s.queued++batch }
  | .queued => some { s with host := .waiting s.buf.producerIdx.toNat }
  | .waiting targetProducer =>
    if targetProducer ≤ s.buf.consumerIdx.toNat then some { s with host := .idle } else some s

def step (s : System) : Act → Option System
  | .task => some s.taskStep
  | .host => s.hostStep
  | .queueEvents evs => match s.host with
    | .idle => some { s with host := .queue evs }
    | _ => none
  | .timeout => match s.host with
    | .waiting _ => some { s with host := .idle }
    | _ => none
  | .setKeyInjectMode mode => some { s with mode }
  | .others keys => some { s with keys }

/-- Core 1 comes up with anything in the buffer. -/
def System.boot (buf : KeyInjectBuf) (keys : KeyEvents) : System :=
  ⟨buf, keyInjectModeSwd, keys, .boot 0, .offline, [], []⟩

/-- The call of `key_event_push_inject_flags` for an event, if there is one. -/
def Event.call (e : Event) : Option (Keycode × Bool × UInt8) :=
  if e.Valid then some (e.kc, e.pressed, e.flags) else none

end MokyaLora.KeyInject
