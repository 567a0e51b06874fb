import MokyaLora.BridgeUplink
import MokyaLora.BridgeDispatch

/-!
# The loop of the bridge task

`bridge_task` of `main_core1_bridge.c`, one access to a ring or to the USB port at a
time. Core 0 pushes on the data ring and on the log ring and pops from the command ring,
and the LVGL task pushes on the command ring, at any moment. What the USB stack answers
(mounted, room in the IN endpoint, bytes taken, bytes waiting in the OUT endpoint) is an
input of the step that asks. One scratch buffer serves the two pops and the read.
-/

set_option autoImplicit false

namespace MokyaLora.BridgeTask
open Lib.Schedule Lib.Fields Lib.Memory IpcRing BridgeDispatch

/-- Where the task stands: in the pop of the data ring, in the loop over the `remaining`
bytes from `p`, in the pop of the log ring, before `tud_cdc_available`, in the retry loop
of the push with `n` bytes, at the end of the iteration, or stopped for the reboot. -/
inductive Pc where
  | data
  | writing (p : Bytes)
  | log
  | cdcOut
  | forwarding (n : ℕ)
  | status
  | rebooting

structure Core1 where
  data : System Unit
  log : System Unit
  cmd : CmdState
  pc : Pc
  scratch : Bytes
  bridge : Bridge
  host : Bytes
  gRxTotal : UInt32
  gTxTotal : UInt32

inductive BridgeAct where
  | core0 (a : Act Unit)
  | core0Log (a : Act Unit)
  | other (a : CmdAct)
  | iterate
  | write (mounted : Bool) (avail wrote : ℕ)
  | readCdc (available : Bytes)

/-- `scratch` is not initialised. -/
def Core1.init (scratch : Bytes) (bridge : Bridge) : Core1 where
  data := System.init
  log := System.init
  cmd := CmdState.init
  pc := .data
  scratch := scratch
  bridge := bridge
  host := []
  gRxTotal := 0
  gTxTotal := 0

/-- Where the task goes on after a message; the branches of the tables end in `continue`. -/
def afterDispatch (hdr : IpcMsgHeader) (scratch : Bytes) : Pc :=
  let len := hdr.payloadLen.toNat
  if hdr.msgId = ipcMsgRebootNotify then .rebooting
  else if hdr.msgId = ipcMsgNodeUpdate ∧ nodeUpdateSize ≤ len ∨
      hdr.msgId = ipcMsgTxAck ∧ txAckSize ≤ len ∨
      hdr.msgId = ipcMsgRxText ∧ textOffset ≤ len then .data
  else if hdr.msgId = BridgeDispatch.ipcMsgSerialBytes ∧ 0 < len then .writing (scratch.take len)
  else .cdcOut

def fill (scratch payload : Bytes) : Bytes := payload++scratch.drop payload.length

def Core1.dispatched (s : Core1) (got : IpcMsgHeader × Bytes) : Core1 :=
  { s with
    scratch := fill s.scratch got.2
    bridge := dispatch got.1 (fill s.scratch got.2) s.bridge
    pc := afterDispatch got.1 (fill s.scratch got.2) }

def Core1.popData (s : Core1) : Core1 :=
  let o := popStep ipcRingSlotCount s.data.ring s.data.consumer
  let s := { s with data := s.data.afterPop o }
  match o.2.2 with
  | none => s
  | some none => { s with pc := .log }
  | some (some got) => s.dispatched got

/-- The log lines are dropped. -/
def Core1.popLog (s : Core1) : Core1 :=
  let o := popStep ipcLogRingSlotCount s.log.ring s.log.consumer
  let s := { s with log := s.log.afterPop o }
  match o.2.2 with
  | none => s
  | some none => { s with pc := .cdcOut }
  | some (some got) => { s with pc := .cdcOut, scratch := fill s.scratch got.2 }

def Core1.forward (s : Core1) (n : ℕ) : Option Core1 :=
  if s.cmd.sys.producer .bridge = .idle then
    if s.cmd.forwarding = none then
      some { s with pc := .status, gTxTotal := s.gTxTotal+UInt32.ofNat n }
    else (cmdStep s.cmd .retry).map (fun cmd => { s with cmd })
  else (cmdStep s.cmd (.task .bridge)).map (fun cmd => { s with cmd })

def Core1.iterate (s : Core1) : Option Core1 :=
  match s.pc with
  | .data => some s.popData
  | .log => some s.popLog
  | .forwarding n => s.forward n
  | .status => some { s with pc := .data }
  | .rebooting => some s
  | .writing _ => none
  | .cdcOut => none

def Core1.write (s : Core1) (p : Bytes) (mounted : Bool) (avail wrote : ℕ) : Option Core1 :=
  if mounted = false then some { s with pc := .cdcOut }
  else if avail = 0 then some s
  else if wrote ≤ min p.length avail then
    some { s with
      host := s.host++p.take wrote
      gRxTotal := s.gRxTotal+UInt32.ofNat wrote
      pc := if p.length ≤ wrote then .cdcOut else .writing (p.drop wrote) }
  else none

def Core1.read (s : Core1) (available : Bytes) : Option Core1 :=
  if available = [] then some { s with pc := .status }
  else (cmdStep s.cmd (.readCdc available)).map (fun cmd =>
    { s with
      cmd
      pc := .forwarding (available.take ipcMsgPayloadMax).length
      scratch := fill s.scratch (available.take ipcMsgPayloadMax) })

/-- Core 0 has the producers' side of the data ring and of the log ring. -/
def produces : Act Unit → Bool
  | .pop => false
  | _ => true

def others : CmdAct → Bool
  | .messagesSendText _ _ _ _ => true
  | .task .lvgl => true
  | .core0 => true
  | _ => false

def bridgeStep (s : Core1) : BridgeAct → Option Core1
  | .core0 a => if produces a then
      (step ipcRingSlotCount s.data a).map (fun data => { s with data }) else none
  | .core0Log a => if produces a then
      (step ipcLogRingSlotCount s.log a).map (fun log => { s with log }) else none
  | .other a => if others a then (cmdStep s.cmd a).map (fun cmd => { s with cmd }) else none
  | .iterate => s.iterate
  | .write mounted avail wrote =>
    match s.pc with
    | .writing p => s.write p mounted avail wrote
    | _ => none
  | .readCdc available =>
    match s.pc with
    | .cdcOut => s.read available
    | _ => none

def Pc.pending : Pc → Bytes
  | .writing p => p
  | _ => []

def Mounted (_ : Core1) : BridgeAct → Prop
  | .write mounted _ _ => mounted = true
  | _ => True

def BridgeAct.chunk : BridgeAct → List Bytes
  | .readCdc [] => []
  | .readCdc available => [available.take ipcMsgPayloadMax]
  | _ => []

/-- What the messages do to the tables, each with its own bytes only. -/
def applied (messages : List Message) (bridge : Bridge) : Bridge :=
  messages.foldl (fun b m => dispatch m.header m.payload b) bridge

structure Outside where
  cmd : CmdState
  host : Bytes
  gRxTotal : UInt32
  gTxTotal : UInt32

def Core1.outside (s : Core1) : Outside := ⟨s.cmd, s.host, s.gRxTotal, s.gTxTotal⟩

theorem pop_log_frame (s : Core1) :
    s.popLog.outside = s.outside ∧ s.popLog.data = s.data ∧ s.popLog.bridge = s.bridge := by
  simp only [Core1.popLog]
  split <;> exact ⟨rfl, rfl, rfl⟩

theorem pop_log_pc (s : Core1) : s.popLog.pc = s.pc ∨ s.popLog.pc = .cdcOut := by
  simp only [Core1.popLog]
  split
  · exact .inl rfl
  · exact .inr rfl
  · exact .inr rfl

theorem pop_data_cases (s : Core1) :
    let o := popStep ipcRingSlotCount s.data.ring s.data.consumer
    (o.2.2 = none ∧ s.popData = { s with data := s.data.afterPop o }) ∨
    (o.2.2 = some none ∧ s.popData = { s with data := s.data.afterPop o, pc := .log }) ∨
    ∃ got, o.2.2 = some (some got) ∧
      s.popData = Core1.dispatched { s with data := s.data.afterPop o } got := by
  simp only [Core1.popData]
  split
  · next h => exact .inl ⟨h, rfl⟩
  · next h => exact .inr (.inl ⟨h, rfl⟩)
  · next got h => exact .inr (.inr ⟨got, h, rfl⟩)

theorem pop_returns {s : System Unit} (hi : IpcRing.Inv ipcRingSlotCount s)
    {got : IpcMsgHeader × Bytes}
    (h : (popStep ipcRingSlotCount s.ring s.consumer).2.2 = some (some got)) :
    ∃ hv : s.popped.length < s.pushed.length, got = s.pushed[s.popped.length].received ∧
      (s.afterPop (popStep ipcRingSlotCount s.ring s.consumer)).popped = s.popped++[got] := by
  have hk := hi.consumer
  cases hp : s.consumer with
  | idle => simp [popStep, hp] at h
  | tailLoaded tail => simp [popStep, hp] at h
  | headLoaded tail head =>
    by_cases he : head = tail <;> simp [popStep, hp, he] at h
  | copied tail copy =>
    rw [hp] at hk
    obtain ⟨-, hv, hcopy⟩ := hk
    have hgot : copy = got := by simpa [popStep, hp] using h
    refine ⟨hv, hgot ▸ hcopy, ?_⟩
    simp [System.afterPop, popStep, hgot]

theorem pop_no_message {s : System Unit}
    (h : (popStep ipcRingSlotCount s.ring s.consumer).2.2.getD none = none) :
    (s.afterPop (popStep ipcRingSlotCount s.ring s.consumer)).popped = s.popped := by
  simp [System.afterPop, h]

end MokyaLora.BridgeTask
