import MokyaLora.Lib.Schedule
import Mathlib.Data.List.Basic
import Mathlib.Logic.Function.Basic
import Mathlib.Data.Nat.Basic

/-!
# The shared-SRAM ring, one memory access at a time

`ipc_ring_push` and `ipc_ring_pop` are cut at their accesses to shared memory:
each index load, slot write or read, and index store is one step, taken in
program order. The number of producers is a parameter, since the code that
reaches a ring decides it. The messages returned and accepted are kept as logs
which no step reads.
-/

set_option autoImplicit false

namespace MokyaLora.IpcRing
open Lib.Schedule

structure IpcMsgHeader where
  msgId : UInt8
  seq : UInt8
  payloadLen : UInt16
  deriving DecidableEq, Repr

def ipcMsgPayloadMax : ℕ := 256

abbrev Payload := Vector UInt8 256

structure IpcRingSlot where
  header : IpcMsgHeader
  payload : Payload
  deriving DecidableEq, Repr

structure IpcRingCtrl where
  head : UInt32
  tail : UInt32
  overflow : UInt32
  deriving DecidableEq, Repr

structure Ring where
  ctrl : IpcRingCtrl
  slots : ℕ → IpcRingSlot

/-- Arguments of one push: the pointer argument stands for the bytes it names,
whose number is the 16-bit `payload_len`. -/
structure Message where
  msgId : UInt8
  seq : UInt8
  payload : List UInt8
  fits : payload.length < 65536
  deriving DecidableEq, Repr

def Message.header (m : Message) : IpcMsgHeader :=
  ⟨m.msgId, m.seq, UInt16.ofNat m.payload.length⟩

def Message.received (m : Message) : IpcMsgHeader × List UInt8 := (m.header, m.payload)

/-- A ring depth for which the free-running 32-bit indexes work. -/
structure SlotCount where
  n : ℕ
  pos : 0 < n
  dvd : n ∣ 4294967296
  lt : n < 4294967296

def ipcRingSlotCount : SlotCount := ⟨32, by decide, by decide, by decide⟩

def ipcLogRingSlotCount : SlotCount := ⟨16, by decide, by decide, by decide⟩

def memcpy (dst : Payload) (src : List UInt8) : Payload :=
  Vector.ofFn (fun i => src.getD i.val (dst.get i))

def Ring.init : Ring where
  ctrl := ⟨0, 0, 0⟩
  slots _ := ⟨⟨0, 0, 0⟩, Vector.replicate 256 0⟩

def Ring.pending (r : Ring) : UInt32 := r.ctrl.head-r.ctrl.tail

def Ring.freeSlots (r : Ring) (c : SlotCount) : UInt32 := UInt32.ofNat c.n-r.pending

def Ring.countOverflow (r : Ring) : Ring :=
  { r with ctrl := { r.ctrl with overflow := r.ctrl.overflow+1 } }

def Ring.writeSlot (r : Ring) (i : ℕ) (m : Message) : Ring :=
  { r with slots := fun j => if j = i then ⟨m.header, memcpy (r.slots i).payload m.payload⟩
      else r.slots j }

def Ring.storeHead (r : Ring) (head : UInt32) : Ring :=
  { r with ctrl := { r.ctrl with head := head } }

def Ring.storeTail (r : Ring) (tail : UInt32) : Ring :=
  { r with ctrl := { r.ctrl with tail := tail } }

inductive PushPc where
  | idle
  | called (m : Message)
  | headLoaded (m : Message) (head : UInt32)
  | tailLoaded (m : Message) (head tail : UInt32)
  | written (m : Message) (head : UInt32)
  deriving DecidableEq

/-- One atomic step of `ipc_ring_push`; the last component is its return value. -/
def pushStep (c : SlotCount) (r : Ring) : PushPc → Ring × PushPc × Option Bool
  | .idle => (r, .idle, none)
  | .called m =>
    if ipcMsgPayloadMax < m.payload.length then (r.countOverflow, .idle, some false)
    else (r, .headLoaded m r.ctrl.head, none)
  | .headLoaded m head => (r, .tailLoaded m head r.ctrl.tail, none)
  | .tailLoaded m head tail =>
    if c.n ≤ (head-tail).toNat then (r.countOverflow, .idle, some false)
    else (r.writeSlot (head.toNat % c.n) m, .written m head, none)
  | .written _ head => (r.storeHead (head+1), .idle, some true)

inductive PopPc where
  | idle
  | tailLoaded (tail : UInt32)
  | headLoaded (tail head : UInt32)
  | copied (tail : UInt32) (got : IpcMsgHeader × List UInt8)

def IpcRingSlot.copyOut (slot : IpcRingSlot) (maxPayload : ℕ) : IpcMsgHeader × List UInt8 :=
  (slot.header, slot.payload.toList.take (min slot.header.payloadLen.toNat maxPayload))

def popStep (c : SlotCount) (r : Ring) : PopPc →
    Ring × PopPc × Option (Option (IpcMsgHeader × List UInt8))
  | .idle => (r, .tailLoaded r.ctrl.tail, none)
  | .tailLoaded tail => (r, .headLoaded tail r.ctrl.head, none)
  | .headLoaded tail head =>
    if head = tail then (r, .idle, some none)
    else (r, .copied tail ((r.slots (tail.toNat % c.n)).copyOut ipcMsgPayloadMax), none)
  | .copied tail got => (r.storeTail (tail+1), .idle, some (some got))

/-- A ring, the tasks inside its functions, and the logs. `seen p` is the
number of messages published when `p` last loaded the head. -/
structure System (P : Type) where
  ring : Ring
  producer : P → PushPc
  consumer : PopPc
  pushed : List Message
  popped : List (IpcMsgHeader × List UInt8)
  seen : P → ℕ

inductive Act (P : Type) where
  | call (p : P) (m : Message)
  | push (p : P)
  | pop

variable {P : Type} [DecidableEq P]

def System.init : System P where
  ring := Ring.init
  producer _ := .idle
  consumer := .idle
  pushed := []
  popped := []
  seen _ := 0

def System.publishedBy (s : System P) (p : P) : List Message :=
  match s.producer p with
  | .written m _ => [m]
  | _ => []

def System.lookedAt (s : System P) (p : P) : ℕ :=
  match s.producer p with
  | .called _ => s.pushed.length
  | _ => s.seen p

def System.afterPush (s : System P) (p : P) (o : Ring × PushPc × Option Bool) : System P where
  ring := o.1
  producer := Function.update s.producer p o.2.1
  consumer := s.consumer
  pushed := if o.2.2 = some true then s.pushed++s.publishedBy p else s.pushed
  popped := s.popped
  seen := Function.update s.seen p (s.lookedAt p)

def System.afterPop (s : System P)
    (o : Ring × PopPc × Option (Option (IpcMsgHeader × List UInt8))) : System P :=
  { s with
    ring := o.1
    consumer := o.2.1
    popped := s.popped++(o.2.2.getD none).toList }

/-- The scheduler's choice: a task calls push, takes its next step inside push,
or the consumer takes its next step. -/
def step (c : SlotCount) (s : System P) : Act P → Option (System P)
  | .call p m => if s.producer p = .idle then
      some { s with producer := Function.update s.producer p (.called m) } else none
  | .push p => if s.producer p = .idle then none
      else some (s.afterPush p (pushStep c s.ring (s.producer p)))
  | .pop => some (s.afterPop (popStep c s.ring s.consumer))

end MokyaLora.IpcRing
