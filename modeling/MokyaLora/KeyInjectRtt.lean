import MokyaLora.KeyInject
import MokyaLora.KeyInjectFrame
import MokyaLora.Lib.Window

/-!
# Keys injected over RTT

A host puts frames into a byte ring in the memory of Core 1 (`build_frame` of
`mokya_rtt.py`, `rtt_send_frame` of `mokya_swd.py`), and `key_inject_rtt_task_fn` reads the
ring, feeds the frame parser and forwards the keys (`key_inject_rtt.c`). The library that
reads the ring is not here: a read takes the oldest bytes of the ring, as many as it
likes.
-/

set_option autoImplicit false

namespace MokyaLora.KeyInjectRtt
open Lib.Fields Lib.Memory MokyaLora.Keypad MokyaLora.KeyInjectFrame
open MokyaLora.KeyInject (Event memoryWrite8 keyInjectModeSwd keyInjectModeRtt)
open MokyaLora.Ime (Keycode mokyaKeyMode)

def mokyaRttKeyinjBufBytes : ℕ := 256

def typeKeyEvent : UInt8 := 0x01

def typeForceSave : UInt8 := 0x02

def typeNop : UInt8 := 0x03

def scratchSize : ℕ := 32

def hostCrcBit (crc : ℕ) : ℕ :=
  if crc &&& 0x80 ≠ 0 then ((crc <<< 1) ^^^ 0x07) &&& 0xFF else (crc <<< 1) &&& 0xFF

def hostCrc8 (data : Bytes) : ℕ := data.foldl (fun crc b => hostCrcBit^[8] (crc ^^^ b.toNat)) 0

/-- A payload that is too long raises. -/
def buildFrame (f : Frame) : Option Bytes :=
  if maxPayload < f.payload.length then none
  else
    let body := f.type::UInt8.ofNat f.payload.length::f.payload
    some (magic0::magic1::(body++[UInt8.ofNat (hostCrc8 body)]))

structure DownBuffer where
  cells : ℕ → UInt8
  wrOff : ℕ
  rdOff : ℕ

/-- The writes of a frame at the offset, split where the buffer wraps. -/
def frameWrites (wr : ℕ) (frame : Bytes) : List (ℕ × UInt8) :=
  if wr+frame.length ≤ mokyaRttKeyinjBufBytes then memoryWrite8 wr frame
  else
    let first := mokyaRttKeyinjBufBytes-wr
    memoryWrite8 wr (frame.take first)++memoryWrite8 0 (frame.drop first)

inductive HostPc where
  | idle
  | waiting (f : Frame) (frame : Bytes)
  | wrRead (f : Frame) (frame : Bytes) (wr : ℕ)
  | rdRead (f : Frame) (frame : Bytes) (wr rd : ℕ)
  | writing (ops : List (ℕ × UInt8)) (f : Frame) (wrEnd : ℕ)

def free (wr rd : ℕ) : ℤ := ((rd : ℤ)-wr-1) % mokyaRttKeyinjBufBytes

inductive TaskPc where
  | top
  | poll
  | read
  | parse (rest : Bytes)

structure Stats where
  bytesRead : UInt32
  framesOk : UInt32
  rejected : UInt32
  loops : UInt32

/-- The frames published by the host, the bytes read, the frames handed to `on_frame` and
its calls of `key_event_push_inject_flags` are logs. -/
structure System where
  down : DownBuffer
  mode : UInt8
  keys : KeyEvents
  task : TaskPc
  parser : Parser
  stats : Stats
  host : HostPc
  sent : List Frame
  got : Bytes
  handed : List Frame
  calls : List (Keycode × Bool × UInt8)

def System.inject (s : System) (kc : Keycode) (pressed : Bool) (flags : UInt8) : System :=
  { s with
    keys := (s.keys.pushInjectFlags kc pressed flags).1
    calls := s.calls++[(kc, pressed, flags)] }

def System.reject (s : System) : System :=
  { s with stats := { s.stats with rejected := s.stats.rejected+1 } }

def System.onFrame (s : System) (f : Frame) : System :=
  let s := { s with
    stats := { s.stats with framesOk := s.stats.framesOk+1 }
    handed := s.handed++[f] }
  if f.type = typeKeyEvent then
    if f.payload.length ≠ 2 then s.reject
    else
      let e : Event := ⟨f.payload.getD 0 0, f.payload.getD 1 0⟩
      if e.Valid then
        let t := s.inject e.kc e.pressed e.flags
        if (s.keys.pushInjectFlags e.kc e.pressed e.flags).2 = .ok then t else t.reject
      else s.reject
  else if f.type = typeForceSave then (s.inject mokyaKeyMode true 0).inject mokyaKeyMode false 0
  else if f.type = typeNop then s
  else s.reject

def DownBuffer.oldest (d : DownBuffer) (k : ℕ) : Bytes :=
  (List.range k).map (fun i => d.cells ((d.rdOff+i) % mokyaRttKeyinjBufBytes))

def DownBuffer.available (d : DownBuffer) : ℕ :=
  (d.wrOff+mokyaRttKeyinjBufBytes-d.rdOff) % mokyaRttKeyinjBufBytes

def System.readBytes (s : System) (k : ℕ) : System :=
  if k = 0 then { s with task := .top }
  else
    { s with
      down := { s.down with rdOff := (s.down.rdOff+k) % mokyaRttKeyinjBufBytes }
      stats := { s.stats with bytesRead := s.stats.bytesRead+UInt32.ofNat k }
      task := .parse (s.down.oldest k)
      got := s.got++s.down.oldest k }

/-- Reads take all bytes that there are and that fit. -/
def System.taskStep (s : System) : System :=
  match s.task with
  | .top =>
    if s.mode ≠ keyInjectModeRtt then s
    else { s with stats := { s.stats with loops := s.stats.loops+1 }, task := .poll }
  | .poll => if s.down.wrOff = s.down.rdOff then { s with task := .top } else { s with task := .read }
  | .read => s.readBytes (min scratchSize s.down.available)
  | .parse [] => { s with task := .top }
  | .parse (b::rest) =>
    let r := pushByte s.parser b
    r.2.foldl System.onFrame { s with parser := r.1, task := .parse rest }

/-- A step of either side, a frame to be sent, the deadline of `rtt_send_frame`, a read that
returns less, a write of `g_key_inject_mode`, or what other tasks do with the key events. -/
inductive Act where
  | task
  | shortRead (k : ℕ)
  | host
  | sendFrame (f : Frame)
  | timeout
  | setKeyInjectMode (mode : UInt8)
  | others (keys : KeyEvents)

def System.hostStep (s : System) : Option System :=
  match s.host with
  | .idle => none
  | .waiting f frame => some { s with host := .wrRead f frame s.down.wrOff }
  | .wrRead f frame wr => some { s with host := .rdRead f frame wr s.down.rdOff }
  | .rdRead f frame wr rd =>
    if (frame.length : ℤ) ≤ free wr rd then
      some { s with host := .writing (frameWrites wr frame) f (wr+frame.length) }
    else some { s with host := .waiting f frame }
  | .writing ((off, byte)::ops) f wrEnd =>
    some { s with
      down := { s.down with cells := Function.update s.down.cells off byte }
      host := .writing ops f wrEnd }
  | .writing [] f wrEnd =>
    some { s with
      down := { s.down with wrOff := wrEnd % mokyaRttKeyinjBufBytes }
      host := .idle
      sent := s.sent++[f] }

def step (s : System) : Act → Option System
  | .task => some s.taskStep
  | .shortRead k => match s.task with
    | .read => if k ≤ min scratchSize s.down.available then some (s.readBytes k) else none
    | _ => none
  | .host => s.hostStep
  | .sendFrame f => match s.host with
    | .idle => match buildFrame f with
      | some frame => some { s with host := .waiting f frame }
      | none => some s
    | _ => none
  | .timeout => match s.host with
    | .rdRead _ frame wr rd =>
      if (frame.length : ℤ) ≤ free wr rd then none else some { s with host := .idle }
    | _ => none
  | .setKeyInjectMode mode => some { s with mode }
  | .others keys => some { s with keys }

def System.start (cells : ℕ → UInt8) (parser : Parser) (keys : KeyEvents) : System :=
  ⟨⟨cells, 0, 0⟩, keyInjectModeSwd, keys, .top, parser.reset, ⟨0, 0, 0, 0⟩, .idle, [], [], [], []⟩

def callsOf (f : Frame) : List (Keycode × Bool × UInt8) :=
  if f.type = typeKeyEvent then
    if f.payload.length = 2 then (Event.call ⟨f.payload.getD 0 0, f.payload.getD 1 0⟩).toList
    else []
  else if f.type = typeForceSave then [(mokyaKeyMode, true, 0), (mokyaKeyMode, false, 0)]
  else []

end MokyaLora.KeyInjectRtt
