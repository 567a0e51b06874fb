import MokyaLora.MessagesScreen

/-!
# Answering a message

OK sends the text of the input method to the sender that stands on the screen, whatever
arrives meanwhile, and the footer reports a delivery or a failure only as Core 0 reported it
for a text that was sent to the node it names.
-/

set_option autoImplicit false

namespace MokyaLora.MessagesView
open Lib.Fields Lib.Schedule MessagesInbox ViewRouter
open MokyaLora.Keypad (KeyEvent)
open BridgeDispatch (TxStatus field32 textOf)

def Command.toNode (c : Command) : UInt32 := field32 c.payload 4

def Command.channel (c : Command) : UInt8 := c.payload.getD 8 0

def Command.wantAck (c : Command) : UInt8 := c.payload.getD 9 0

theorem payload_at (node : UInt32) (channel : UInt8) (ack : Bool) (text : Bytes) :
    At (payloadText node channel ack text) 4 (le32 node.toNat) ∧
      At (payloadText node channel ack text) 10
        (le16 (text.take messagesSendTextMax).length) := by
  have hwhole := at_zero (payloadText node channel ack text)
  simp only [payloadText, at_append] at hwhole ⊢
  exact ⟨hwhole.1.1.1.2, hwhole.1.2⟩

theorem payload_to (seq : UInt8) (node : UInt32) (channel : UInt8) (ack : Bool) (text : Bytes) :
    (Command.mk seq (payloadText node channel ack text)).toNode = node := by
  rw [Command.toNode, field32, load32_at node.toNat_lt (payload_at node channel ack text).1,
    UInt32.ofNat_toNat]

theorem payload_channel (seq : UInt8) (node : UInt32) (channel : UInt8) (ack : Bool)
    (text : Bytes) : (Command.mk seq (payloadText node channel ack text)).channel = channel :=
  rfl

theorem payload_text (node : UInt32) (channel : UInt8) (ack : Bool) (text : Bytes) :
    textOf (payloadText node channel ack text) = text.take messagesSendTextMax := by
  have hlen : (text.take messagesSendTextMax).length ≤ 200 := List.length_take_le ..
  have hdrop : (payloadText node channel ack text).drop BridgeDispatch.textOffset =
      text.take messagesSendTextMax := rfl
  rw [textOf, BridgeDispatch.field16, load16_at (by omega) (payload_at node channel ack text).2,
    hdrop, UInt16.toNat_ofNat_of_lt' (by show _ < 65536; omega), List.take_length,
    List.take_of_length_le hlen]

def Composed (drafts : List Bytes) (text : Bytes) : Prop :=
  text ≠ [] ∧ ∃ d ∈ drafts, text = d.take messagesSendTextMax

def Answered (t : Phone) (node : UInt32) (channel : UInt8) (drafts : List Bytes)
    (commands : List Command) : Prop :=
  commands = t.commands ∨ ∃ text, Composed drafts text ∧
    commands = t.commands++[⟨t.seq, payloadText node channel true text⟩]

def Answering (t : Phone) (node : UInt32) (channel : UInt8) (drafts : List Bytes) (u : Phone) :
    Prop :=
  match u.pc with
  | .composing target => target.fromNodeId = node ∧ target.channelIndex = channel ∧
      u.draft ∈ drafts ∧ u.commands = t.commands ∧ u.seq = t.seq
  | .sending target text => target.fromNodeId = node ∧ target.channelIndex = channel ∧
      Composed drafts text ∧ u.commands = t.commands ∧ u.seq = t.seq
  | .clearing _ _ => Answered t node channel drafts u.commands
  | .idle => Answered t node channel drafts u.commands
  | _ => False

/-- What may come between the calls that one key event makes. -/
def Act.Between : Act → Prop
  | .key _ => False
  | .refresh => False
  | _ => True

def Act.drafts : Act → List Bytes
  | .type text => [text]
  | _ => []

theorem composed_take {drafts : List Bytes} {d : Bytes} (hd : d ∈ drafts) (hne : d ≠ []) :
    Composed drafts (d.take messagesSendTextMax) := by
  refine ⟨fun h => ?_, d, hd, rfl⟩
  rcases List.take_eq_nil_iff.mp h with h | h
  · cases h
  · exact hne h

theorem answering_go {t u v : Phone} {node : UInt32} {channel : UInt8} {drafts : List Bytes}
    (locked pushed : Bool) (h : Answering t node channel drafts u)
    (hs : u.go locked pushed = some v) : Answering t node channel drafts v := by
  rw [Phone.go] at hs
  rw [Answering] at h
  split at hs
  · cases hs
  all_goals
    rename_i hpc
    rw [hpc] at h
    cases hs
  · exact h.elim
  · exact h.elim
  · exact h.elim
  · exact h.elim
  · obtain ⟨hnode, hchannel, hdraft, hcommands, hseq⟩ := h
    rcases compose_cases u _ locked with heq | ⟨hne, heq⟩ <;> rw [heq]
    · exact .inl hcommands
    · exact ⟨hnode, hchannel, composed_take hdraft hne, hcommands, hseq⟩
  · obtain ⟨hnode, hchannel, htext, hcommands, hseq⟩ := h
    cases pushed with
    | true =>
      refine .inr ⟨_, htext, ?_⟩
      simp only [Phone.send, if_true, hcommands, hseq, hnode, hchannel]
    | false => exact .inl hcommands
  · exact h

theorem answering_step {t u v : Phone} {node : UInt32} {channel : UInt8} {drafts : List Bytes}
    (a : Act) (ha : a.Between) (hd : a.drafts ⊆ drafts) (h : Answering t node channel drafts u)
    (hs : step u a = some v) : Answering t node channel drafts v := by
  cases a with
  | publish p =>
    cases hs
    exact h
  | txAck ipcSeq result errorReason packetId =>
    cases hs
    exact h
  | type text =>
    cases hs
    have hmem : text ∈ drafts := hd (List.mem_singleton.mpr rfl)
    cases hpc : u.pc with
    | composing target =>
      simp only [Answering, hpc] at h ⊢
      exact ⟨h.1, h.2.1, hmem, h.2.2.2⟩
    | sending target text => simpa only [Answering, hpc] using h
    | clearing target text => simpa only [Answering, hpc] using h
    | idle => simpa only [Answering, hpc] using h
    | _ => simp only [Answering, hpc] at h
  | key ev => exact ha.elim
  | refresh => exact ha.elim
  | go locked pushed => exact answering_go locked pushed h hs

theorem answering_exec {t : Phone} {node : UInt32} {channel : UInt8} {drafts : List Bytes}
    (acts : List Act) (u v : Phone) (ha : ∀ a ∈ acts, a.Between)
    (hd : acts.flatMap Act.drafts ⊆ drafts) (h : Answering t node channel drafts u)
    (he : exec step u acts = some v) : Answered t node channel drafts v.commands := by
  induction acts generalizing u with
  | nil =>
    rw [exec, Option.some.injEq] at he
    subst he
    rw [Answering] at h
    split at h
    · exact .inl h.2.2.2.1
    · exact .inl h.2.2.2.1
    · exact h
    · exact h
    · exact h.elim
  | cons a acts ih =>
    obtain ⟨w, hw, hrest⟩ := Option.bind_eq_some_iff.mp he
    rw [List.flatMap_cons, List.append_subset] at hd
    exact ih w (fun b hb => ha b (List.mem_cons_of_mem a hb)) hd.2
      (answering_step a (ha a List.mem_cons_self) hd.1 h hw) hrest

theorem answering_key {t u : Phone} (ev : KeyEvent) (hi : Inv t) (hc : t.Current)
    (hok : ev.pressed = true ∧ ev.keycode = mokyaKeyOk) (hs : step t (.key ev) = some u) :
    u.commands = t.commands ∧ u.pc = .idle ∨
      ∃ node channel, t.view.header = .sender node channel ∧
        ∀ drafts, t.draft ∈ drafts → Answering t node channel drafts u := by
  simp only [step] at hs
  split at hs
  · next hpc =>
    cases hs
    rcases key_cases t ev with ⟨r, -, heq⟩ | ⟨-, heq⟩ <;> rw [heq]
    · exact .inl ⟨rfl, hpc⟩
    · rcases apply_cases t ev with heq | ⟨-, -, heq⟩ | ⟨-, hne, -⟩ | ⟨-, hne, -⟩
      · rw [heq]
        exact .inl ⟨rfl, hpc⟩
      · rw [heq, Phone.ok]
        split
        · exact .inl ⟨rfl, hpc⟩
        · next target htarget =>
          rw [hi.inbox] at htarget
          obtain ⟨p, hp, hfrom⟩ := take_some htarget
          rw [Phone.Current, hpc] at hc
          simp only [Fresh, Shows, hp] at hc
          exact .inr ⟨_, _, hc.1, fun drafts hd => ⟨hfrom.node, hfrom.channel, hd, rfl, rfl⟩⟩
      · exact (hne hok.2).elim
      · exact (hne hok.2).elim
  · cases hs

theorem idle_stays (acts : List Act) (u v : Phone) (ha : ∀ a ∈ acts, a.Between)
    (hidle : u.pc = .idle) (he : exec step u acts = some v) : v.commands = u.commands := by
  induction acts generalizing u with
  | nil =>
    rw [exec, Option.some.injEq] at he
    rw [he]
  | cons a acts ih =>
    obtain ⟨w, hw, hrest⟩ := Option.bind_eq_some_iff.mp he
    have hbetween := ha a List.mem_cons_self
    have hstep : w.pc = .idle ∧ w.commands = u.commands := by
      cases a with
      | publish p =>
        cases hw
        exact ⟨hidle, rfl⟩
      | txAck ipcSeq result errorReason packetId =>
        cases hw
        exact ⟨hidle, rfl⟩
      | type text =>
        cases hw
        exact ⟨hidle, rfl⟩
      | key ev => exact hbetween.elim
      | refresh => exact hbetween.elim
      | go locked pushed => simp [step, Phone.go, hidle] at hw
    rw [ih w (fun b hb => ha b (List.mem_cons_of_mem a hb)) hstep.1 hrest, hstep.2]

/-- OK pressed after a refresh on screen, with no message in between, sends nothing or one
command: the text of the input method, cut after 200 bytes, to the sender that stands on the
screen and on its channel, with a delivery report asked for. Messages, statuses and changes of
the text may come between any two of its calls. -/
theorem reply_to_sender_shown (acts quiet rest : List Act) (s t u : Phone) (ev : KeyEvent)
    (he : exec step boot acts = some s) (hactive : s.router.active = viewIndex)
    (hr : exec step s (.refresh::quiet) = some t) (hquiet : ∀ a ∈ quiet, a.packets = [])
    (hok : ev.pressed = true ∧ ev.keycode = mokyaKeyOk)
    (hk : exec step t (.key ev::rest) = some u) (hbetween : ∀ a ∈ rest, a.Between)
    (hfew : (acts.flatMap Act.packets).length < 4294967296) :
    u.commands = t.commands ∨ ∃ c d, u.commands = t.commands++[c] ∧
      t.view.header = .sender c.toNode c.channel ∧ c.wantAck = 1 ∧
      d ∈ t.draft::rest.flatMap Act.drafts ∧ textOf c.payload = d.take 200 ∧ d ≠ [] := by
  obtain ⟨ht, hc, -⟩ := after_refresh acts quiet s t he hactive hr hquiet hfew
  obtain ⟨w, hw, hafter⟩ := Option.bind_eq_some_iff.mp hk
  rcases answering_key ev ht hc hok hw with ⟨hsent, hidle⟩ | ⟨node, channel, hh, hanswer⟩
  · exact .inl ((idle_stays rest w u hbetween hidle hafter).trans hsent)
  · have hwhole := answering_exec rest w u hbetween
      (List.subset_cons_self t.draft (rest.flatMap Act.drafts))
      (hanswer (t.draft::rest.flatMap Act.drafts) List.mem_cons_self) hafter
    refine hwhole.imp id (fun ⟨text, ⟨hne, d, hd, htext⟩, hsent⟩ => ?_)
    refine ⟨_, d, hsent, ?_, rfl, hd, ?_, fun hnil => hne ?_⟩
    · rw [payload_to, payload_channel, hh]
    · rw [payload_text, htext, List.take_take, Nat.min_self]
      rfl
    · rw [htext, hnil, List.take_nil]

def okPress : KeyEvent := ⟨mokyaKeyOk, true, .hw, 0⟩

theorem greeting_answered :
    ∃ s t u c d, exec step boot opened = some s ∧
      exec step s (.refresh::(rendered++[.type [111, 107]])) = some t ∧
      exec step t (.key okPress::List.replicate 3 (.go true true)) = some u ∧
      u.commands = t.commands++[c] ∧ t.view.header = .sender c.toNode c.channel ∧
      textOf c.payload = d.take 200 ∧ d ≠ [] := by
  have hopen : (exec step boot opened).map (fun s => s.router.active) = some viewIndex := by
    decide +kernel
  obtain ⟨s, hs, hactive⟩ := Option.map_eq_some_iff.mp hopen
  have hread : ((exec step boot opened).bind (fun s =>
      exec step s (.refresh::(rendered++[.type [111, 107]])))).map
      (fun t => t.commands.length) = some 0 := by decide +kernel
  rw [hs, Option.bind_some] at hread
  obtain ⟨t, ht, hnone⟩ := Option.map_eq_some_iff.mp hread
  have hsend : (((exec step boot opened).bind (fun s =>
      exec step s (.refresh::(rendered++[.type [111, 107]])))).bind (fun t =>
      exec step t (.key okPress::List.replicate 3 (.go true true)))).map
      (fun u => u.commands.length) = some 1 := by decide +kernel
  rw [hs, Option.bind_some, ht, Option.bind_some] at hsend
  obtain ⟨u, hu, hone⟩ := Option.map_eq_some_iff.mp hsend
  rcases reply_to_sender_shown opened (rendered++[.type [111, 107]])
    (List.replicate 3 (.go true true)) s t u okPress hs hactive ht (by decide) (by decide) hu
    (by simp [Act.Between]) (by decide) with hsame | ⟨c, d, hc, hh, -, -, htext, hne⟩
  · rw [hsame, hnone] at hone
    cases hone
  · exact ⟨s, t, u, c, d, hs, ht, hu, hc, hh, htext, hne⟩

def Reported (commands : List Command) (statuses : List TxStatus) : Footer → Prop
  | .sending node => ∃ c ∈ commands, c.toNode = node
  | .delivered node => ∃ c ∈ commands, c.toNode = node ∧
      ∃ tx ∈ statuses, tx.ipcSeq = c.seq ∧ tx.result = messagesTxResultDelivered
  | .failed err node => ∃ c ∈ commands, c.toNode = node ∧
      ∃ tx ∈ statuses, tx.ipcSeq = c.seq ∧ tx.result = messagesTxResultFailed ∧
        tx.errorReason = err
  | _ => True

theorem reported_mono {cs ds : List Command} {xs ys : List TxStatus} {f : Footer}
    (hc : cs ⊆ ds) (hx : xs ⊆ ys) (h : Reported cs xs f) : Reported ds ys f := by
  cases f with
  | sending node =>
    obtain ⟨c, hmem, h⟩ := h
    exact ⟨c, hc hmem, h⟩
  | delivered node =>
    obtain ⟨c, hmem, hto, tx, htx, h⟩ := h
    exact ⟨c, hc hmem, hto, tx, hx htx, h⟩
  | failed err node =>
    obtain ⟨c, hmem, hto, tx, htx, h⟩ := h
    exact ⟨c, hc hmem, hto, tx, hx htx, h⟩
  | _ => trivial

def Heard (ps : List Packet) (node : UInt32) (channel : UInt8) : Prop :=
  ∃ p ∈ ps, p.fromNodeId = node ∧ p.channelIndex = channel

def Pc.target : Pc → Option Entry
  | .composing target => some target
  | .sending target _ => some target
  | _ => none

def Pc.cleared : Pc → Option (Entry × UInt8)
  | .clearing target sentSeq => some (target, sentSeq)
  | _ => none

/-- The number and the target that the view waits on are those of a command. -/
structure Acked (s : Phone) : Prop where
  target : ∀ e, s.pc.target = some e → Heard s.packets e.fromNodeId e.channelIndex
  commands : ∀ c ∈ s.commands, Heard s.packets c.toNode c.channel
  clearing : ∀ sent, s.pc.cleared = some sent →
    ∃ c ∈ s.commands, c.seq = sent.2 ∧ c.toNode = sent.1.fromNodeId
  pending : s.view.pendingTxActive = true →
    ∃ c ∈ s.commands, c.seq = s.view.pendingTxSeq ∧ c.toNode = s.view.pendingTxTarget
  status : s.txStatus.result = messagesTxResultSending ∨ s.txStatus ∈ s.statuses
  footer : Reported s.commands s.statuses s.view.footer

theorem acked_boot : Acked boot where
  target := nofun
  commands := nofun
  clearing := nofun
  pending := nofun
  status := .inl rfl
  footer := trivial

theorem overlay_reported {s : Phone} (h : Acked s) :
    Reported s.commands s.statuses (maybeRenderTxStatusFooter s.txStatus s.view).footer := by
  rw [maybeRenderTxStatusFooter]
  by_cases hactive : s.view.pendingTxActive = false
  · rw [if_pos hactive]
    exact h.footer
  obtain ⟨c, hc, hseq, hto⟩ := h.pending (by simpa using hactive)
  rw [if_neg hactive]
  by_cases hchange : s.txStatus.changeSeq = s.view.lastTxChangeSeq
  · rw [if_pos hchange]
    exact h.footer
  rw [if_neg hchange]
  by_cases hother : s.txStatus.ipcSeq = s.view.pendingTxSeq
  · have hmine : s.txStatus.ipcSeq = c.seq := hother.trans hseq.symm
    simp only [hother, ne_eq, not_true_eq_false, if_false]
    by_cases hsending : s.txStatus.result = messagesTxResultSending
    · rw [if_pos hsending]
      exact ⟨c, hc, hto⟩
    have hmem := h.status.resolve_left hsending
    rw [if_neg hsending]
    by_cases hdelivered : s.txStatus.result = messagesTxResultDelivered
    · rw [if_pos hdelivered]
      exact ⟨c, hc, hto, _, hmem, hmine, hdelivered⟩
    rw [if_neg hdelivered]
    by_cases hfailed : s.txStatus.result = messagesTxResultFailed
    · rw [if_pos hfailed]
      exact ⟨c, hc, hto, _, hmem, hmine, hfailed, rfl⟩
    · rw [if_neg hfailed]
      exact h.footer
  · simp only [ne_eq, hother, not_false_eq_true, if_true]
    exact h.footer

theorem free_target {ps : List Packet} {pc : Pc} (h : pc.target = none) (e : Entry)
    (he : pc.target = some e) : Heard ps e.fromNodeId e.channelIndex := by
  rw [h] at he
  cases he

theorem free_after_render (refresh : Bool) :
    (afterRender refresh).target = none ∧ (afterRender refresh).cleared = none := by
  cases refresh <;> exact ⟨rfl, rfl⟩

theorem free_cleared {cs : List Command} {pc : Pc} (h : pc.cleared = none)
    (sent : Entry × UInt8) (hsent : pc.cleared = some sent) :
    ∃ c ∈ cs, c.seq = sent.2 ∧ c.toNode = sent.1.fromNodeId := by
  rw [h] at hsent
  cases hsent

theorem acked_go {s t : Phone} (h : Acked s) (locked pushed : Bool)
    (hs : s.go locked pushed = some t) : Acked t := by
  rw [Phone.go] at hs
  split at hs
  · cases hs
  all_goals
    rename_i hpc
    cases hs
  · rw [Phone.peek]
    split
    · exact ⟨free_target rfl, h.commands, free_cleared rfl, h.pending, h.status, h.footer⟩
    · split <;> exact ⟨free_target rfl, h.commands, free_cleared rfl, h.pending, h.status, h.footer⟩
  · rw [Phone.renderOffset]
    split
    · obtain ⟨htarget, hcleared⟩ := free_after_render _
      exact ⟨free_target htarget, h.commands, free_cleared hcleared, h.pending, h.status, trivial⟩
    · exact ⟨free_target rfl, h.commands, free_cleared rfl, h.pending, h.status, h.footer⟩
  · obtain ⟨htarget, hcleared⟩ := free_after_render _
    exact ⟨free_target htarget, h.commands, free_cleared hcleared, h.pending, h.status, trivial⟩
  · have hfooter := overlay_reported h
    rw [tx_footer_frame]
    exact ⟨free_target rfl, h.commands, free_cleared rfl, h.pending, h.status, hfooter⟩
  · rcases compose_cases s _ locked with heq | ⟨-, heq⟩ <;> rw [heq]
    · exact ⟨free_target rfl, h.commands, free_cleared rfl, h.pending, h.status, trivial⟩
    · exact ⟨fun e he => h.target e (by rw [hpc]; exact he), h.commands, free_cleared rfl,
        h.pending, h.status, h.footer⟩
  · rename_i target text
    have hheard := h.target target (by rw [hpc]; rfl)
    cases pushed with
    | true =>
      simp only [Phone.send, if_true]
      have hsub := List.subset_append_left s.commands
        [⟨s.seq, payloadText target.fromNodeId target.channelIndex true text⟩]
      refine ⟨free_target rfl, fun c hc => ?_, ?_, fun hactive => ?_, h.status,
        reported_mono hsub (List.Subset.refl _) h.footer⟩
      · rcases List.mem_append.mp hc with hc | hc
        · exact h.commands c hc
        · rw [List.mem_singleton.mp hc, payload_to, payload_channel]
          exact hheard
      · rintro _ ⟨⟩
        exact ⟨_, List.mem_append_right _ (List.mem_singleton.mpr rfl), rfl, payload_to ..⟩
      · obtain ⟨c, hc, hpending⟩ := h.pending hactive
        exact ⟨c, hsub hc, hpending⟩
    | false => exact ⟨free_target rfl, h.commands, free_cleared rfl, h.pending, h.status, trivial⟩
  · obtain ⟨c, hc, hseq, hto⟩ := h.clearing _ (by rw [hpc]; rfl)
    exact ⟨free_target rfl, h.commands, free_cleared rfl, fun _ => ⟨c, hc, hseq, hto⟩,
      h.status, c, hc, hto⟩

theorem acked_key {s : Phone} (hi : Inv s) (h : Acked s) (ev : KeyEvent) :
    Acked (s.key ev) := by
  rcases key_cases s ev with ⟨r, -, heq⟩ | ⟨-, heq⟩ <;> rw [heq]
  · exact ⟨h.target, h.commands, h.clearing, h.pending, h.status, h.footer⟩
  · rcases apply_cases s ev with heq | ⟨-, -, heq⟩ | ⟨-, -, heq⟩ | ⟨-, -, heq⟩ <;> rw [heq]
    · exact h
    · rw [Phone.ok]
      split
      · exact ⟨h.target, h.commands, h.clearing, h.pending, h.status, trivial⟩
      · next target htarget =>
        rw [hi.inbox] at htarget
        obtain ⟨p, hp, hfrom⟩ := take_some htarget
        refine ⟨?_, h.commands, free_cleared rfl, h.pending, h.status, h.footer⟩
        rintro _ ⟨⟩
        exact ⟨p, List.mem_reverse.mp (List.mem_of_getElem? hp), hfrom.node.symm,
          hfrom.channel.symm⟩
    · exact ⟨free_target rfl, h.commands, free_cleared rfl,
        (fun hactive => by cases hactive), h.status, h.footer⟩
    · exact ⟨free_target rfl, h.commands, free_cleared rfl,
        (fun hactive => by cases hactive), h.status, h.footer⟩

theorem acked_refresh {s : Phone} (h : Acked s) : Acked s.refresh := by
  rcases refresh_cases s with ⟨-, heq⟩ | ⟨-, -, -, heq⟩ | ⟨-, -, -, heq⟩ | ⟨-, -, heq⟩ <;> rw [heq]
  · exact ⟨h.target, h.commands, h.clearing, h.pending, h.status, h.footer⟩
  · exact ⟨free_target rfl, h.commands, free_cleared rfl, h.pending, h.status, h.footer⟩
  · exact ⟨free_target rfl, h.commands, free_cleared rfl, h.pending, h.status, h.footer⟩
  · exact ⟨free_target rfl, h.commands, free_cleared rfl, h.pending, h.status, h.footer⟩

theorem heard_publish {ps : List Packet} {node : UInt32} {channel : UInt8} (p : Packet)
    (h : Heard ps node channel) : Heard (ps++[p]) node channel := by
  obtain ⟨q, hq, h⟩ := h
  exact ⟨q, List.mem_append_left _ hq, h⟩

theorem acked_step {s t : Phone} (a : Act) (hi : Inv s) (h : Acked s) (hs : step s a = some t) :
    Acked t := by
  cases a with
  | publish p =>
    cases hs
    exact ⟨fun e he => heard_publish p (h.target e he),
      fun c hc => heard_publish p (h.commands c hc), h.clearing, h.pending, h.status, h.footer⟩
  | txAck ipcSeq result errorReason packetId =>
    cases hs
    exact ⟨h.target, h.commands, h.clearing, h.pending,
      .inr (List.mem_append_right _ (List.mem_singleton.mpr rfl)),
      reported_mono (List.Subset.refl _) (List.subset_append_left ..) h.footer⟩
  | type text =>
    cases hs
    exact ⟨h.target, h.commands, h.clearing, h.pending, h.status, h.footer⟩
  | key ev =>
    simp only [step] at hs
    split at hs <;> cases hs
    exact acked_key hi h ev
  | refresh =>
    simp only [step] at hs
    split at hs <;> cases hs
    exact acked_refresh h
  | go locked pushed => exact acked_go h locked pushed hs

theorem acked_exec (acts : List Act) (s t : Phone) (hi : Inv s) (h : Acked s)
    (he : exec step s acts = some t) (hfew : t.packets.length < 4294967296) : Acked t := by
  induction acts generalizing s with
  | nil =>
    rw [exec, Option.some.injEq] at he
    exact he ▸ h
  | cons a acts ih =>
    have hlen := congrArg List.length (packets_exec _ _ _ he)
    rw [List.length_append] at hlen
    obtain ⟨u, hu, hrest⟩ := Option.bind_eq_some_iff.mp he
    exact ih u (inv_step a hi (by omega) hu) (acked_step a hi h hu) hrest

theorem statuses_exec (acts : List Act) (s t : Phone) (he : exec step s acts = some t)
    (tx : TxStatus) (htx : tx ∈ t.statuses) : tx ∈ s.statuses ∨
      .txAck tx.ipcSeq tx.result tx.errorReason tx.packetId ∈ acts := by
  induction acts generalizing s with
  | nil =>
    rw [exec, Option.some.injEq] at he
    exact .inl (he ▸ htx)
  | cons a acts ih =>
    obtain ⟨u, hu, hrest⟩ := Option.bind_eq_some_iff.mp he
    rcases ih u hrest with h | h
    · rw [(history_step a hu).2, List.mem_append] at h
      refine h.imp id (fun h => ?_)
      cases a with
      | txAck ipcSeq result errorReason packetId =>
        rw [List.mem_singleton.mp h]
        exact List.mem_cons_self
      | _ => cases h
    · exact .inr (List.mem_cons_of_mem a h)

end MokyaLora.MessagesView
