import MokyaLora.IpcRingSpsc
import MokyaLora.Lib.Fields

/-!
# The two tasks that push on the command ring

On Core 1 `bridge_task` forwards the bytes of the USB port and the LVGL task
sends text messages, both through `ipc_ring_push` on `c1_to_c0` and both at one
priority, so the scheduler may switch between them at any step. The ring is
written for one producer. Runs whose slot writes are orderly lose nothing; a
switch between one task's head load and its head store loses a command.
-/

set_option autoImplicit false

namespace MokyaLora.IpcRing
open Lib.Schedule Lib.Fields

inductive Core1Task where
  | bridge
  | lvgl
  deriving DecidableEq

def ipcMsgSerialBytes : UInt8 := 0x06

def ipcCmdSendText : UInt8 := 0x81

def messagesSendTextMax : ℕ := 200

def serialBytes (txSeq : UInt8) (available : List UInt8) : Message where
  msgId := ipcMsgSerialBytes
  seq := txSeq
  payload := available.take ipcMsgPayloadMax
  fits := lt_of_le_of_lt (List.length_take_le ipcMsgPayloadMax available) (by decide)

/-- `IpcPayloadText`, with the text cut to `MESSAGES_SEND_TEXT_MAX` bytes. -/
def ipcPayloadText (toNodeId : UInt32) (channelIndex : UInt8) (wantAck : Bool)
    (text : List UInt8) : List UInt8 :=
  le32 0++le32 toNodeId.toNat++[channelIndex, if wantAck then 1 else 0]++
    le16 (text.take messagesSendTextMax).length++text.take messagesSendTextMax

theorem ipc_payload_text_length (toNodeId : UInt32) (channelIndex : UInt8) (wantAck : Bool)
    (text : List UInt8) :
    (ipcPayloadText toNodeId channelIndex wantAck text).length =
      12+min messagesSendTextMax text.length := by
  simp [ipcPayloadText]
  omega

def sendText (seq : UInt8) (toNodeId : UInt32) (channelIndex : UInt8) (wantAck : Bool)
    (text : List UInt8) : Message where
  msgId := ipcCmdSendText
  seq := seq
  payload := ipcPayloadText toNodeId channelIndex wantAck text
  fits := by rw [ipc_payload_text_length, messagesSendTextMax]; omega

/-- The ring `c1_to_c0` with its two producers. `forwarding` is the message that
the retry loop of `bridge_task` is pushing. -/
structure CmdState where
  sys : System Core1Task
  forwarding : Option Message
  txSeq : UInt8
  sSeq : UInt8

inductive CmdAct where
  | readCdc (available : List UInt8)
  | retry
  | messagesSendText (toNodeId : UInt32) (channelIndex : UInt8) (wantAck : Bool)
      (text : List UInt8)
  | task (p : Core1Task)
  | core0

def CmdState.init : CmdState := ⟨System.init, none, 0, 0⟩

def CmdState.returned (s : CmdState) (p : Core1Task) : Option Bool :=
  (pushStep ipcRingSlotCount s.sys.ring (s.sys.producer p)).2.2

def CmdState.ringAct (s : CmdState) : CmdAct → Option (Act Core1Task)
  | .readCdc available =>
    if s.forwarding = none ∧ available ≠ [] then some (.call .bridge (serialBytes s.txSeq available))
    else none
  | .retry => s.forwarding.map (.call .bridge)
  | .messagesSendText toNodeId channelIndex wantAck text =>
    some (.call .lvgl (sendText s.sSeq toNodeId channelIndex wantAck text))
  | .task p => some (.push p)
  | .core0 => some .pop

def CmdState.afterAct (s : CmdState) (sys : System Core1Task) : CmdAct → CmdState
  | .readCdc available => { s with sys, forwarding := some (serialBytes s.txSeq available) }
  | .retry => { s with sys }
  | .messagesSendText _ _ _ _ => { s with sys, sSeq := s.sSeq+1 }
  | .task .bridge =>
    if s.returned .bridge = some true then { s with sys, forwarding := none, txSeq := s.txSeq+1 }
    else { s with sys }
  | .task .lvgl => { s with sys }
  | .core0 => { s with sys }

def cmdStep (s : CmdState) (a : CmdAct) : Option CmdState :=
  (s.ringAct a).bind (fun act =>
    (step ipcRingSlotCount s.sys act).map (fun sys => s.afterAct sys a))

theorem after_act_sys (s : CmdState) (sys : System Core1Task) (a : CmdAct) :
    (s.afterAct sys a).sys = sys := by
  unfold CmdState.afterAct
  split <;> try rfl
  split <;> rfl

theorem cmd_step_ring (s t : CmdState) (a : CmdAct) (hs : cmdStep s a = some t) :
    ∃ act, s.ringAct a = some act ∧ step ipcRingSlotCount s.sys act = some t.sys := by
  obtain ⟨act, ha, hm⟩ := Option.bind_eq_some_iff.mp hs
  obtain ⟨sys, hsys, rfl⟩ := Option.map_eq_some_iff.mp hm
  exact ⟨act, ha, by rw [after_act_sys, hsys]⟩

/-- The action writes no slot from a stale head and none while the other task
stands between its slot write and its head store. -/
def CmdOrderly (s : CmdState) (a : CmdAct) : Prop :=
  match s.ringAct a with
  | some act => Orderly ipcRingSlotCount s.sys act
  | none => True

instance (f : Core1Task → Prop) [DecidablePred f] : Decidable (∀ p, f p) :=
  decidable_of_iff (f .bridge ∧ f .lvgl)
    ⟨fun h p => by cases p with | bridge => exact h.1 | lvgl => exact h.2,
      fun h => ⟨h .bridge, h .lvgl⟩⟩

instance : DecidablePred PushPc.Writing
  | .written _ _ => isTrue trivial
  | .idle => isFalse id
  | .called _ => isFalse id
  | .headLoaded _ _ => isFalse id
  | .tailLoaded _ _ _ => isFalse id

instance (c : SlotCount) (s : System Core1Task) (act : Act Core1Task) :
    Decidable (Orderly c s act) := by
  unfold Orderly
  split <;> try infer_instance
  split <;> infer_instance

instance (s : CmdState) (a : CmdAct) : Decidable (CmdOrderly s a) := by
  unfold CmdOrderly
  split <;> infer_instance

theorem cmd_inv (acts : List CmdAct) (t : CmdState)
    (ho : Along cmdStep CmdOrderly CmdState.init acts)
    (he : exec cmdStep CmdState.init acts = some t) : Inv ipcRingSlotCount t.sys := by
  refine exec_invariant cmdStep CmdOrderly (fun s => Inv ipcRingSlotCount s.sys) ?_ acts _ t
    (inv_init _) ho he
  intro s a u hi ha hs
  obtain ⟨act, hact, hstep⟩ := cmd_step_ring s u a hs
  simp only [CmdOrderly, hact] at ha
  exact inv_step _ _ _ act hi ha hstep

theorem core0_step (s : CmdState) (hi : Inv ipcRingSlotCount s.sys)
    (h : s.sys.popped.length < s.sys.pushed.length) :
    ∃ t, cmdStep s .core0 = some t ∧
      (Inv ipcRingSlotCount t.sys ∧ t.sys.pushed = s.sys.pushed) ∧ t.sys.left < s.sys.left :=
  ⟨_, rfl, ⟨inv_pop _ _ hi, rfl⟩, pop_left hi h⟩

/-- In every state of a run whose slot writes are orderly Core 0 has popped the
commands whose push returned true, first come first served and each as it was
sent, and it gets the rest when it goes on popping. -/
theorem cmd_ring_orderly_fifo (acts : List CmdAct) (t : CmdState)
    (ho : Along cmdStep CmdOrderly CmdState.init acts)
    (he : exec cmdStep CmdState.init acts = some t) :
    t.sys.popped <+: t.sys.pushed.map Message.received ∧
    ∃ k u, exec cmdStep t (List.replicate k .core0) = some u ∧
      u.sys.popped = t.sys.pushed.map Message.received := by
  have hi := cmd_inv acts t ho he
  refine ⟨inv_popped_first hi, ?_⟩
  obtain ⟨k, u, hu, ⟨hui, hpushed⟩, hdone⟩ := exec_until cmdStep .core0
    (fun s => Inv ipcRingSlotCount s.sys ∧ s.sys.pushed = t.sys.pushed)
    (fun s => ¬ s.sys.popped.length < s.sys.pushed.length) (fun s => s.sys.left)
    (fun s hs hg => by
      obtain ⟨v, hv, ⟨hvi, hvp⟩, hlt⟩ := core0_step s hs.1 (not_not.mp hg)
      exact ⟨v, hv, ⟨hvi, hvp.trans hs.2⟩, hlt⟩) t ⟨hi, rfl⟩
  exact ⟨k, u, hu, by rw [inv_all_popped hui hdone, hpushed]⟩

/-- `messages_send_text` is preempted after its tail load, `bridge_task` pushes,
and the resumed call fills the same slot and stores the same head. -/
def preemptedSend : List CmdAct :=
  [.messagesSendText 0xFFFFFFFF 0 true [104, 105], .task .lvgl, .task .lvgl,
    .readCdc [1, 2, 3], .task .bridge, .task .bridge, .task .bridge, .task .bridge,
    .task .lvgl, .task .lvgl, .core0, .core0, .core0, .core0]

/-- Both pushes return true, the ring is drained, and the forwarded bytes are gone. -/
theorem cmd_ring_lost_update : ∃ t, exec cmdStep CmdState.init preemptedSend = some t ∧
    t.sys.pushed = [serialBytes 0 [1, 2, 3], sendText 0 0xFFFFFFFF 0 true [104, 105]] ∧
    t.sys.popped = [(sendText 0 0xFFFFFFFF 0 true [104, 105]).received] ∧
    t.sys.ring.pending = 0 ∧ ¬ t.sys.popped <+: t.sys.pushed.map Message.received :=
  ⟨_, rfl, by decide +kernel, by decide +kernel, by decide +kernel, by decide +kernel⟩

def orderedSends : List CmdAct :=
  [.messagesSendText 0xFFFFFFFF 0 true [104, 105], .task .lvgl, .task .lvgl, .task .lvgl,
    .task .lvgl, .readCdc [1, 2, 3], .task .bridge, .task .bridge, .task .bridge, .task .bridge]

theorem ordered_sends_fifo : ∃ t, exec cmdStep CmdState.init orderedSends = some t ∧
    t.sys.popped <+: t.sys.pushed.map Message.received ∧
    ∃ k u, exec cmdStep t (List.replicate k .core0) = some u ∧
      u.sys.popped = t.sys.pushed.map Message.received :=
  ⟨_, rfl, cmd_ring_orderly_fifo orderedSends _ (by decide +kernel) rfl⟩

end MokyaLora.IpcRing
