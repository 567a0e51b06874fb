import MokyaLora.IpcRing
import MokyaLora.MessagesInbox
import MokyaLora.NodesDb

/-!
# Dispatch of the messages from core 0

The branches of the bridge task (`main_core1_bridge.c`) behind a pop of the data ring.
The pop fills the front of the scratch buffer; behind it stands what older messages
left. A node report ends with an alias and a text message with its text, each with a
declared length that the bridge does not trust.
-/

set_option autoImplicit false

namespace MokyaLora.BridgeDispatch
open Lib.Fields Lib.Memory IpcRing

def ipcMsgRxText : UInt8 := 0x01
def ipcMsgNodeUpdate : UInt8 := 0x02
def ipcMsgTxAck : UInt8 := 0x04
def ipcMsgSerialBytes : UInt8 := 0x06
def ipcMsgRebootNotify : UInt8 := 0x09

def aliasOffset : ℕ := 19

/-- `sizeof(IpcPayloadNodeUpdate)`, a multiple of its widest member. -/
def nodeUpdateSize : ℕ := 20

def textOffset : ℕ := 12

def txAckSize : ℕ := 8

def field16 (b : Bytes) (off : ℕ) : UInt16 := UInt16.ofNat (load16 b off)

def field32 (b : Bytes) (off : ℕ) : UInt32 := UInt32.ofNat (load32 b off)

structure TxStatus where
  ipcSeq : UInt8
  result : UInt8
  errorReason : UInt8
  packetId : UInt32
  changeSeq : UInt32

/-- What the dispatch changes; `cdc` holds the byte strings that go to the host. -/
structure Bridge where
  nodes : NodesDb.Db
  inbox : MessagesInbox.Inbox
  txStatus : TxStatus
  cdc : List Bytes
  rebootPending : Bool

/-- The arguments of `nodes_db_upsert`; the alias pointer points into the scratch buffer. -/
def nodeUpdate (scratch : Bytes) (aliasLen : UInt8) : NodesDb.Update where
  nodeId := field32 scratch 0
  rssi := (field16 scratch 4).toInt16
  snrX4 := (scratch.getD 6 0).toInt8
  hopsAway := scratch.getD 7 0
  latE7 := (field32 scratch 8).toInt32
  lonE7 := (field32 scratch 12).toInt32
  batteryMv := field16 scratch 16
  aliasText := some (scratch.drop aliasOffset)
  aliasLen := aliasLen

def clampAlias (len : ℕ) (declared : UInt8) : UInt8 :=
  if len < aliasOffset+declared.toNat then UInt8.ofNat (len-aliasOffset) else declared

def clampText (len : ℕ) (declared : UInt16) : UInt16 :=
  let textInPayload := if textOffset < len then UInt16.ofNat (len-textOffset) else 0
  if textInPayload < declared then textInPayload else declared

def dispatch (hdr : IpcMsgHeader) (scratch : Bytes) (s : Bridge) : Bridge :=
  let len := hdr.payloadLen.toNat
  if hdr.msgId = ipcMsgRebootNotify then { s with rebootPending := true }
  else if hdr.msgId = ipcMsgNodeUpdate ∧ nodeUpdateSize ≤ len then
    let aliasLen := clampAlias len (scratch.getD 18 0)
    { s with nodes := NodesDb.upsert s.nodes (nodeUpdate scratch aliasLen) }
  else if hdr.msgId = ipcMsgTxAck ∧ txAckSize ≤ len then
    { s with txStatus := ⟨scratch.getD 0 0, scratch.getD 1 0, scratch.getD 2 0,
        field32 scratch 4, s.txStatus.changeSeq+1⟩ }
  else if hdr.msgId = ipcMsgRxText ∧ textOffset ≤ len then
    let textLen := clampText len (field16 scratch 10)
    let inbox := MessagesInbox.publish s.inbox (field32 scratch 0) (field32 scratch 4)
      (scratch.getD 8 0) (some (scratch.drop textOffset)) textLen
    { s with inbox := inbox }
  else if hdr.msgId = ipcMsgSerialBytes ∧ 0 < len then { s with cdc := s.cdc++[scratch.take len] }
  else s

def aliasOf (payload : Bytes) : Bytes :=
  ((payload.drop aliasOffset).take (payload.getD 18 0).toNat).take 16

def textOf (payload : Bytes) : Bytes :=
  ((payload.drop textOffset).take (field16 payload 10).toNat).take 200

def reportOf (payload : Bytes) : NodesDb.Update :=
  { nodeUpdate payload (UInt8.ofNat (aliasOf payload).length) with
    aliasText := some (aliasOf payload) }

def publishOf (s : MessagesInbox.Inbox) (payload : Bytes) : MessagesInbox.Inbox :=
  MessagesInbox.publish s (field32 payload 0) (field32 payload 4) (payload.getD 8 0)
    (some (textOf payload)) (UInt16.ofNat (textOf payload).length)

/-- A report or a text is applied if its fixed fields are there, and dropped otherwise. -/
def Applied (m : Message) (s t : Bridge) : Prop :=
  (m.msgId = ipcMsgNodeUpdate →
    t = if aliasOffset ≤ m.payload.length then
        { s with nodes := NodesDb.upsert s.nodes (reportOf m.payload) }
      else s) ∧
  (m.msgId = ipcMsgRxText →
    t = if textOffset ≤ m.payload.length then { s with inbox := publishOf s.inbox m.payload }
      else s)

theorem getD_front (a b : Bytes) (i : ℕ) (h : i < a.length) : (a++b).getD i 0 = a.getD i 0 := by
  rw [List.getD_eq_getElem?_getD, List.getElem?_append_left h, List.getD_eq_getElem?_getD]

theorem field16_front (a b : Bytes) (off : ℕ) (h : off+2 ≤ a.length) :
    field16 (a++b) off = field16 a off := by
  simp only [field16, load16, byteAt]
  rw [getD_front a b off (by omega), getD_front a b (off+1) (by omega)]

theorem field32_front (a b : Bytes) (off : ℕ) (h : off+4 ≤ a.length) :
    field32 (a++b) off = field32 a off := by
  simp only [field32, load32, load16, byteAt]
  rw [getD_front a b off (by omega), getD_front a b (off+1) (by omega),
    getD_front a b (off+2) (by omega), getD_front a b (off+2+1) (by omega)]

theorem drop_front (a b : Bytes) (off n : ℕ) (h : off+n ≤ a.length) :
    ((a++b).drop off).take n = (a.drop off).take n := by
  rw [List.drop_append_of_le_length (by omega), List.take_append_of_le_length]
  rw [List.length_drop]
  omega

theorem header_len (m : Message) : m.header.payloadLen.toNat = m.payload.length := by
  have := m.fits
  rw [Message.header, UInt16.toNat_ofNat', Nat.mod_eq_of_lt this]

theorem upsert_cut (s : NodesDb.Db) (u : NodesDb.Update) (t : Bytes) (h : u.aliasText = some t) :
    NodesDb.upsert s u = NodesDb.upsert s
      { u with aliasText := some (t.take (NodesDb.cut u.aliasLen).toNat),
               aliasLen := NodesDb.cut u.aliasLen } := by
  have hcut : NodesDb.cut (NodesDb.cut u.aliasLen) = NodesDb.cut u.aliasLen := by
    by_cases hl : u.aliasLen > NodesDb.aliasMax <;> simp [NodesDb.cut, hl]
  have hfill : NodesDb.fill u = NodesDb.fill
      { u with aliasText := some (t.take (NodesDb.cut u.aliasLen).toNat),
               aliasLen := NodesDb.cut u.aliasLen } := by
    ext touch e
    simp [NodesDb.fill, NodesDb.copyAlias, h, hcut, List.take_take]
  simp only [NodesDb.upsert, hfill]

theorem publish_cut (s : MessagesInbox.Inbox) (src dst : UInt32) (ch : UInt8) (t : Bytes)
    (textLen : UInt16) :
    MessagesInbox.publish s src dst ch (some t) textLen =
      MessagesInbox.publish s src dst ch (some (t.take (MessagesInbox.cut textLen).toNat))
        (MessagesInbox.cut textLen) := by
  have hcut : MessagesInbox.cut (MessagesInbox.cut textLen) = MessagesInbox.cut textLen := by
    by_cases hl : textLen > MessagesInbox.textMax <;> simp [MessagesInbox.cut, hl]
  simp [MessagesInbox.publish, MessagesInbox.copyText, hcut, List.take_take]

theorem alias_length (payload : Bytes) :
    (aliasOf payload).length =
      min 16 (min (payload.getD 18 0).toNat (payload.length-aliasOffset)) := by
  simp [aliasOf]

theorem text_length (payload : Bytes) :
    (textOf payload).length =
      min 200 (min (field16 payload 10).toNat (payload.length-textOffset)) := by
  simp [textOf]

theorem clamp_alias (len : ℕ) (declared : UInt8) (h : aliasOffset ≤ len) :
    (clampAlias len declared).toNat = min declared.toNat (len-aliasOffset) := by
  have hdeclared := declared.toNat_lt
  by_cases hlie : len < aliasOffset+declared.toNat
  · rw [clampAlias, if_pos hlie, UInt8.toNat_ofNat']
    omega
  · rw [clampAlias, if_neg hlie]
    omega

theorem clamp_text (len : ℕ) (declared : UInt16) (hfit : len < 65536) :
    (clampText len declared).toNat = min declared.toNat (len-textOffset) := by
  have hthere : (if textOffset < len then UInt16.ofNat (len-textOffset) else 0).toNat =
      len-textOffset := by
    by_cases hl : textOffset < len
    · rw [if_pos hl, UInt16.toNat_ofNat', Nat.mod_eq_of_lt (by omega)]
    · simp [hl]
      omega
  simp only [clampText, UInt16.lt_iff_toNat_lt, hthere]
  by_cases hlie : len-textOffset < declared.toNat
  · rw [if_pos hlie, hthere]
    omega
  · rw [if_neg hlie]
    omega

theorem alias_cut (payload : Bytes) (h : aliasOffset ≤ payload.length) :
    NodesDb.cut (clampAlias payload.length (payload.getD 18 0)) =
      UInt8.ofNat (aliasOf payload).length := by
  have hdeclared := (payload.getD 18 0).toNat_lt
  apply UInt8.toNat_inj.mp
  rw [NodesDb.cut_toNat, clamp_alias _ _ h, alias_length, UInt8.toNat_ofNat']
  omega

theorem text_cut (payload : Bytes) (hfit : payload.length < 65536) :
    MessagesInbox.cut (clampText payload.length (field16 payload 10)) =
      UInt16.ofNat (textOf payload).length := by
  apply UInt16.toNat_inj.mp
  rw [MessagesInbox.cut_toNat, clamp_text _ _ hfit, text_length, UInt16.toNat_ofNat']
  omega

theorem alias_front (payload stale : Bytes) (h : aliasOffset ≤ payload.length) :
    ((payload++stale).drop aliasOffset).take (UInt8.ofNat (aliasOf payload).length).toNat =
      aliasOf payload := by
  have hlen := alias_length payload
  have hnat : (UInt8.ofNat (aliasOf payload).length).toNat = (aliasOf payload).length := by
    rw [UInt8.toNat_ofNat']
    omega
  have hfront : aliasOf payload <+: payload.drop aliasOffset :=
    (List.take_prefix _ _).trans (List.take_prefix _ _)
  rw [hnat, drop_front _ _ _ _ (by omega)]
  exact (List.prefix_iff_eq_take.mp hfront).symm

theorem node_update_applied (m : Message) (stale : Bytes) (s : Bridge)
    (hid : m.msgId = ipcMsgNodeUpdate) (hlen : nodeUpdateSize ≤ m.payload.length) :
    dispatch m.header (m.payload++stale) s =
      { s with nodes := NodesDb.upsert s.nodes (reportOf m.payload) } := by
  have hid' : m.header.msgId = ipcMsgNodeUpdate := hid
  have hoff : aliasOffset ≤ m.payload.length := le_trans (by decide) hlen
  have hne : ipcMsgNodeUpdate ≠ ipcMsgRebootNotify := by decide
  simp only [dispatch, header_len, hid', hne, if_false, hlen, and_self, if_true]
  simp only [nodeUpdateSize] at hlen
  rw [getD_front _ _ 18 (by omega), upsert_cut _ _ ((m.payload++stale).drop aliasOffset) rfl]
  simp only [nodeUpdate, alias_cut m.payload hoff, alias_front m.payload stale hoff]
  rw [field32_front _ _ 0 (by omega), field16_front _ _ 4 (by omega), getD_front _ _ 6 (by omega),
    getD_front _ _ 7 (by omega), field32_front _ _ 8 (by omega), field32_front _ _ 12 (by omega),
    field16_front _ _ 16 (by omega)]
  rfl

theorem text_front (payload stale : Bytes) (h : textOffset ≤ payload.length) :
    ((payload++stale).drop textOffset).take (UInt16.ofNat (textOf payload).length).toNat =
      textOf payload := by
  have hlen := text_length payload
  have hnat : (UInt16.ofNat (textOf payload).length).toNat = (textOf payload).length := by
    rw [UInt16.toNat_ofNat']
    omega
  have hfront : textOf payload <+: payload.drop textOffset :=
    (List.take_prefix _ _).trans (List.take_prefix _ _)
  rw [hnat, drop_front _ _ _ _ (by omega)]
  exact (List.prefix_iff_eq_take.mp hfront).symm

theorem rx_text_applied (m : Message) (stale : Bytes) (s : Bridge)
    (hid : m.msgId = ipcMsgRxText) (hlen : textOffset ≤ m.payload.length) :
    dispatch m.header (m.payload++stale) s =
      { s with inbox := publishOf s.inbox m.payload } := by
  have hid' : m.header.msgId = ipcMsgRxText := hid
  have hne : ipcMsgRxText ≠ ipcMsgRebootNotify ∧ ipcMsgRxText ≠ ipcMsgNodeUpdate ∧
      ipcMsgRxText ≠ ipcMsgTxAck := by decide
  simp only [dispatch, header_len, hid', hne, if_false, false_and, hlen, and_self, if_true]
  have hfront := text_front m.payload stale hlen
  simp only [textOffset] at hlen
  rw [field16_front _ _ 10 (by omega), publish_cut, text_cut _ m.fits, hfront,
    field32_front _ _ 0 (by omega), field32_front _ _ 4 (by omega), getD_front _ _ 8 (by omega)]
  rfl

theorem dropped (m : Message) (stale : Bytes) (s : Bridge)
    (h : m.msgId = ipcMsgNodeUpdate ∧ m.payload.length < nodeUpdateSize ∨
      m.msgId = ipcMsgRxText ∧ m.payload.length < textOffset) :
    dispatch m.header (m.payload++stale) s = s := by
  have hmsg : m.header.msgId = m.msgId := rfl
  rcases h with ⟨hid, hlen⟩ | ⟨hid, hlen⟩ <;>
    simp [dispatch, header_len, hmsg, hid, Nat.not_le.mpr hlen, ipcMsgNodeUpdate, ipcMsgRxText,
      ipcMsgRebootNotify, ipcMsgTxAck, ipcMsgSerialBytes]

theorem upsert_ne (s : NodesDb.Db) (u : NodesDb.Update) (h : u.nodeId ≠ 0) :
    NodesDb.upsert s u ≠ s := by
  intro heq
  have hseq := congrArg NodesDb.Db.changeSeq heq
  rw [NodesDb.upsert, if_neg h] at hseq
  simp at hseq

theorem applied_report (m : Message) (s t : Bridge) (hid : m.msgId = ipcMsgNodeUpdate) :
    Applied m s t ↔ t = if aliasOffset ≤ m.payload.length then
      { s with nodes := NodesDb.upsert s.nodes (reportOf m.payload) } else s := by
  have hne : ipcMsgNodeUpdate ≠ ipcMsgRxText := by decide
  simp [Applied, hid, hne]

theorem applied_text (m : Message) (s t : Bridge) (hid : m.msgId = ipcMsgRxText) :
    Applied m s t ↔ t = if textOffset ≤ m.payload.length then
      { s with inbox := publishOf s.inbox m.payload } else s := by
  have hne : ipcMsgRxText ≠ ipcMsgNodeUpdate := by decide
  simp [Applied, hid, hne]

/-- Reports and texts are applied as sent, with no byte read behind them, but for a report
that ends with its alias length. -/
theorem applied_iff (m : Message) (stale : Bytes) (s : Bridge) :
    Applied m s (dispatch m.header (m.payload++stale) s) ↔
      ¬ (m.msgId = ipcMsgNodeUpdate ∧ m.payload.length = aliasOffset ∧
        field32 m.payload 0 ≠ 0) := by
  by_cases hnode : m.msgId = ipcMsgNodeUpdate
  · rw [applied_report m _ _ hnode]
    by_cases hlen : nodeUpdateSize ≤ m.payload.length
    · have hoff : aliasOffset ≤ m.payload.length := le_trans (by decide) hlen
      have hne : m.payload.length ≠ aliasOffset := by
        simp only [nodeUpdateSize, aliasOffset] at *
        omega
      simp [node_update_applied m stale s hnode hlen, hoff, hne]
    · rw [dropped m stale s (.inl ⟨hnode, by omega⟩)]
      by_cases hoff : aliasOffset ≤ m.payload.length
      · have heq : m.payload.length = aliasOffset := by
          simp only [nodeUpdateSize, aliasOffset] at *
          omega
        by_cases hzero : field32 m.payload 0 = 0
        · simp [heq, hzero, NodesDb.upsert, reportOf, nodeUpdate]
        · have hchange : s ≠ { s with nodes := NodesDb.upsert s.nodes (reportOf m.payload) } :=
            fun hs => upsert_ne s.nodes (reportOf m.payload) hzero (congrArg Bridge.nodes hs).symm
          simpa [hnode, heq, hzero] using hchange
      · have hne : m.payload.length ≠ aliasOffset := by omega
        simp [hoff, hne]
  · by_cases htext : m.msgId = ipcMsgRxText
    · rw [applied_text m _ _ htext]
      by_cases hlen : textOffset ≤ m.payload.length
      · simp [hnode, rx_text_applied m stale s htext hlen, hlen]
      · rw [dropped m stale s (.inr ⟨htext, by omega⟩)]
        simp [hnode, hlen]
    · simp [Applied, hnode, htext]

/-- A node without an alias: the payload is the fixed fields. -/
def bareReport : Message :=
  ⟨ipcMsgNodeUpdate, 0,
    [0xD2, 0x04, 0, 0, 0xA6, 0xFF, 24, 1, 0, 0, 0, 0, 0, 0, 0, 0, 0x74, 0x0E, 0], by decide⟩

theorem bare_report_dropped :
    aliasOffset ≤ bareReport.payload.length ∧
      ∀ s, ¬ Applied bareReport s (dispatch bareReport.header (bareReport.payload++[]) s) := by
  refine ⟨by decide, ?_⟩
  intro s h
  have hid : bareReport.msgId = ipcMsgNodeUpdate := rfl
  rw [applied_report _ _ _ hid, dropped _ _ _ (.inl ⟨hid, by decide⟩), if_pos (by decide)] at h
  exact upsert_ne s.nodes (reportOf bareReport.payload) (by decide) (congrArg Bridge.nodes h).symm

end MokyaLora.BridgeDispatch
