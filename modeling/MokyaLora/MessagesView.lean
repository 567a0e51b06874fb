import MokyaLora.BridgeDispatch
import MokyaLora.Lib.Schedule
import MokyaLora.ViewRouter

/-!
# The messages view

The screen that shows one received message and answers it (`messages_view.c`,
`messages_send.c`, `messages_tx_status.c`). The view runs on the LVGL task; a message or a
status may arrive, and the input method may change its text, between any two of its calls.
-/

set_option autoImplicit false

namespace MokyaLora.MessagesView
open Lib.Fields Lib.Schedule MessagesInbox ViewRouter
open MokyaLora.Keypad (KeyEvent)
open MokyaLora.Ime (Keycode)
open BridgeDispatch (TxStatus)

def messagesSendTextMax : ℕ := 200

def messagesTxResultSending : UInt8 := 0
def messagesTxResultDelivered : UInt8 := 1
def messagesTxResultFailed : UInt8 := 2

def mokyaKeyUp : Keycode := 0x1F
def mokyaKeyDown : Keycode := 0x20
def mokyaKeyOk : Keycode := 0x23

def viewIndex : ℕ := 4

def hex (n : UInt32) : String :=
  "0x"++String.ofList (List.leftpad 8 '0' (Nat.toDigits 16 n.toNat))

inductive Header where
  | noMessages
  | sender (fromNodeId : UInt32) (channelIndex : UInt8)
  deriving DecidableEq

def Header.text : Header → String
  | .noMessages => "(no messages yet)"
  | .sender node channel => "From "++hex node++"  ch"++toString channel.toNat

inductive Footer where
  | position (shown total : UInt32)
  | noRecipient
  | imeEmpty
  | sendFailed
  | sending (target : UInt32)
  | delivered (target : UInt32)
  | failed (errorReason : UInt8) (target : UInt32)
  deriving DecidableEq

def Footer.text : Footer → String
  | .position shown total => "msg "++toString shown.toNat++"/"++toString total.toNat
  | .noRecipient => "(no recipient — wait for a msg)"
  | .imeEmpty => "(IME empty — type first)"
  | .sendFailed => "send failed (ring full)"
  | .sending target => "sending → "++hex target
  | .delivered target => "delivered → "++hex target
  | .failed err target => "failed (err "++toString err.toNat++") → "++hex target

/-- What a label shows of an entry's text: a C string ends at its first zero. -/
def bodyText (e : Entry) : Bytes :=
  (Lib.Memory.segment e.text 0 (cut e.textLen).toNat).takeWhile (· ≠ 0)

structure View where
  header : Header
  body : Bytes
  footer : Footer
  offset : UInt32
  stickyToNewest : Bool
  displayedSeq : UInt32
  pendingTxActive : Bool
  pendingTxSeq : UInt8
  pendingTxTarget : UInt32
  lastTxChangeSeq : UInt32

/-- Where the LVGL task stands. `render` and `counting` are the two reads of
`render_offset`; the flag says whether a refresh called it. -/
inductive Pc where
  | idle
  | peek
  | render (offset : UInt32) (refresh : Bool)
  | counting (entry : Entry) (offset : UInt32) (refresh : Bool)
  | txFooter
  | composing (target : Entry)
  | sending (target : Entry) (text : Bytes)
  | clearing (target : Entry) (sentSeq : UInt8)

structure Command where
  seq : UInt8
  payload : Bytes

/-- The last three fields are history that no code reads. -/
structure Phone where
  router : Router
  inbox : Inbox
  txStatus : TxStatus
  draft : Bytes
  seq : UInt8
  view : View
  pc : Pc
  packets : List Packet
  statuses : List TxStatus
  commands : List Command

def messagesViewInit : View where
  header := .noMessages
  body := []
  footer := .position 0 0
  offset := 0
  stickyToNewest := true
  displayedSeq := 0
  pendingTxActive := false
  pendingTxSeq := 0
  pendingTxTarget := 0
  lastTxChangeSeq := 0

def boot : Phone where
  router := viewRouterInit
  inbox := empty
  txStatus := ⟨0, 0, 0, 0, 0⟩
  draft := []
  seq := 0
  view := messagesViewInit
  pc := .idle
  packets := []
  statuses := []
  commands := []

def txStatusPublish (s : TxStatus) (ipcSeq result errorReason : UInt8) (packetId : UInt32) :
    TxStatus :=
  ⟨ipcSeq, result, errorReason, packetId, s.changeSeq+1⟩

def afterRender (refresh : Bool) : Pc := if refresh then .txFooter else .idle

/-- `render_offset` up to the call of `messages_inbox_count`. -/
def Phone.renderOffset (s : Phone) (offset : UInt32) (refresh : Bool) : Phone :=
  match takeAtOffset s.inbox offset with
  | none =>
    { s with
      view := { s.view with
        header := .noMessages
        body := []
        footer := .position 0 0
        displayedSeq := 0 }
      pc := afterRender refresh }
  | some entry =>
    { s with
      view := { s.view with
        header := .sender entry.fromNodeId entry.channelIndex
        body := bodyText entry }
      pc := .counting entry offset refresh }

def Phone.renderFooter (s : Phone) (entry : Entry) (offset : UInt32) (refresh : Bool) : Phone :=
  let total := s.inbox.count
  let shown := if total > offset then total-offset else 0
  { s with
    view := { s.view with footer := .position shown total, displayedSeq := entry.seq }
    pc := afterRender refresh }

def maybeRenderTxStatusFooter (tx : TxStatus) (v : View) : View :=
  if v.pendingTxActive = false then v
  else if tx.changeSeq = v.lastTxChangeSeq then v
  else
    let v := { v with lastTxChangeSeq := tx.changeSeq }
    if tx.ipcSeq ≠ v.pendingTxSeq then v
    else if tx.result = messagesTxResultSending then
      { v with footer := .sending v.pendingTxTarget }
    else if tx.result = messagesTxResultDelivered then
      { v with footer := .delivered v.pendingTxTarget }
    else if tx.result = messagesTxResultFailed then
      { v with footer := .failed tx.errorReason v.pendingTxTarget }
    else v

/-- `messages_view_refresh` up to its second look at the inbox. -/
def Phone.refresh (s : Phone) : Phone :=
  if s.router.hidden viewIndex then
    { s with view := { s.view with lastTxChangeSeq := 0 } }
  else if s.inbox.latestSeq = 0 then
    if s.view.displayedSeq ≠ 0 then { s with pc := .render 0 true } else { s with pc := .txFooter }
  else
    { s with
      view := { s.view with offset := if s.view.stickyToNewest then 0 else s.view.offset }
      pc := .peek }

def Phone.peek (s : Phone) : Phone :=
  match takeAtOffset s.inbox s.view.offset with
  | none => { s with pc := .txFooter }
  | some peek =>
    if peek.seq ≠ s.view.displayedSeq then { s with pc := .render s.view.offset true }
    else { s with pc := .txFooter }

/-- The branch of `messages_view_apply` for OK, up to the lock. -/
def Phone.ok (s : Phone) : Phone :=
  match takeAtOffset s.inbox s.view.offset with
  | none => { s with view := { s.view with footer := .noRecipient } }
  | some target => { s with pc := .composing target }

def Phone.up (s : Phone) : Phone :=
  let offset := if s.view.offset+1 < s.inbox.count then s.view.offset+1 else s.view.offset
  { s with
    view := { s.view with offset := offset, stickyToNewest := false, pendingTxActive := false }
    pc := .render offset false }

def Phone.down (s : Phone) : Phone :=
  let offset := if s.view.offset > 0 then s.view.offset-1 else s.view.offset
  let sticky := if offset = 0 then true else s.view.stickyToNewest
  { s with
    view := { s.view with offset := offset, stickyToNewest := sticky, pendingTxActive := false }
    pc := .render offset false }

/-- `messages_view_apply` up to its first call that another task can come before. -/
def Phone.apply (s : Phone) (ev : KeyEvent) : Phone :=
  if ev.pressed = false then s
  else if ev.keycode = mokyaKeyOk then s.ok
  else if s.inbox.count = 0 then s
  else if ev.keycode = mokyaKeyUp then s.up
  else if ev.keycode = mokyaKeyDown then s.down
  else s

def Phone.key (s : Phone) (ev : KeyEvent) : Phone :=
  let (router, view) := route ev s.router
  let s := { s with router := router }
  if view = some viewIndex then s.apply ev else s

def Phone.compose (s : Phone) (target : Entry) (locked : Bool) : Phone :=
  let text := if locked then s.draft.take messagesSendTextMax else []
  if text = [] then { s with view := { s.view with footer := .imeEmpty }, pc := .idle }
  else { s with pc := .sending target text }

/-- The bytes that `messages_send_text` builds, laid out as `IpcPayloadText`. -/
def payloadText (toNodeId : UInt32) (channelIndex : UInt8) (wantAck : Bool) (text : Bytes) :
    Bytes :=
  let text := text.take messagesSendTextMax
  le32 0++le32 toNodeId.toNat++[channelIndex, if wantAck then 1 else 0]++le16 text.length++text

/-- `messages_send_text` and what the view makes of its answer; `pushed` says whether the ring
had room. -/
def Phone.send (s : Phone) (target : Entry) (text : Bytes) (pushed : Bool) : Phone :=
  let payload := payloadText target.fromNodeId target.channelIndex true text
  let s' := { s with seq := s.seq+1 }
  if pushed then
    { s' with commands := s.commands++[⟨s.seq, payload⟩], pc := .clearing target s.seq }
  else { s' with view := { s.view with footer := .sendFailed }, pc := .idle }

/-- `ime_view_clear_text` and the end of the branch for OK. -/
def Phone.clear (s : Phone) (target : Entry) (sentSeq : UInt8) (locked : Bool) : Phone :=
  { s with
    draft := if locked then [] else s.draft
    view := { s.view with
      footer := .sending target.fromNodeId
      pendingTxActive := true
      pendingTxSeq := sentSeq
      pendingTxTarget := target.fromNodeId }
    pc := .idle }

/-- The next call of the LVGL task; `locked` and `pushed` are the answers it may get. -/
def Phone.go (s : Phone) (locked pushed : Bool) : Option Phone :=
  match s.pc with
  | .idle => none
  | .peek => some s.peek
  | .render offset refresh => some (s.renderOffset offset refresh)
  | .counting entry offset refresh => some (s.renderFooter entry offset refresh)
  | .txFooter =>
    some { s with view := maybeRenderTxStatusFooter s.txStatus s.view, pc := .idle }
  | .composing target => some (s.compose target locked)
  | .sending target text => some (s.send target text pushed)
  | .clearing target sentSeq => some (s.clear target sentSeq locked)

inductive Act where
  | publish (p : Packet)
  | txAck (ipcSeq result errorReason : UInt8) (packetId : UInt32)
  | type (text : Bytes)
  | key (ev : KeyEvent)
  | refresh
  | go (locked pushed : Bool)

def step (s : Phone) : Act → Option Phone
  | .publish p => some { s with inbox := deliver s.inbox p, packets := s.packets++[p] }
  | .txAck ipcSeq result errorReason packetId =>
    let tx := txStatusPublish s.txStatus ipcSeq result errorReason packetId
    some { s with txStatus := tx, statuses := s.statuses++[tx] }
  | .type text => some { s with draft := text }
  | .key ev => match s.pc with
    | .idle => some (s.key ev)
    | _ => none
  | .refresh => match s.pc with
    | .idle => some s.refresh
    | _ => none
  | .go locked pushed => s.go locked pushed

end MokyaLora.MessagesView
