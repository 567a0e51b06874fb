import MokyaLora.MessagesView

/-!
# What the messages view shows

The labels always show one received message whole, and a refresh that no message comes into
ends with the message that stands at the view's offset before the newest one.
-/

set_option autoImplicit false

namespace MokyaLora.MessagesView
open Lib.Fields Lib.Schedule Lib.Ring MessagesInbox ViewRouter
open MokyaLora.Keypad (KeyEvent)
open BridgeDispatch (TxStatus)

def label (p : Packet) : Bytes := (p.body.take 200).takeWhile (· ≠ 0)

structure Entry.From (e : Entry) (p : Packet) (seq : UInt32) : Prop where
  node : e.fromNodeId = p.fromNodeId
  channel : e.channelIndex = p.channelIndex
  text : bodyText e = label p
  seq : e.seq = seq

theorem entry_from {e : Entry} {p : Packet} {seq : UInt32} (h : e.shown = p.message seq) :
    Entry.From e p seq := by
  rw [Entry.shown, Packet.message, Message.mk.injEq] at h
  obtain ⟨hseq, hnode, -, hchannel, htext⟩ := h
  have hlen : e.textLen.toNat ≤ 200 := by
    have := congrArg List.length htext
    rw [Lib.Memory.segment_length, List.length_take] at this
    omega
  refine ⟨hnode, hchannel, ?_, hseq⟩
  rw [bodyText, cut_toNat, Nat.min_eq_left hlen, htext, label]

theorem received_count (ps : List Packet) : (received ps).count.toNat = min ps.length 4 := by
  have hcount := (received_holds ps).1.count
  rwa [numbered_length, List.length_reverse] at hcount

theorem received_latest (ps : List Packet) (h : ps.length < 4294967296) :
    (received ps).latestSeq = 0 ↔ ps = [] := by
  rw [(received_holds ps).2, ← UInt32.toNat_inj, UInt32.toNat_ofNat_of_lt' h, UInt32.toNat_zero,
    List.length_eq_zero_iff]

theorem take_none {ps : List Packet} {offset : UInt32} :
    takeAtOffset (received ps) offset = none ↔ min ps.length 4 ≤ offset.toNat := by
  rw [takeAtOffset, ← received_count]
  by_cases h : offset ≥ (received ps).count
  · simpa [h] using UInt32.le_iff_toNat_le.mp h
  · simpa [h] using UInt32.lt_iff_toNat_lt.mp (UInt32.not_le.mp h)

theorem take_some {ps : List Packet} {offset : UInt32} {e : Entry}
    (h : takeAtOffset (received ps) offset = some e) :
    ∃ p, ps.reverse[offset.toNat]? = some p ∧
      Entry.From e p (UInt32.ofNat (ps.length-offset.toNat)) := by
  have hlt : offset.toNat < min ps.length 4 := by
    by_contra hle
    rw [take_none.mpr (Nat.le_of_not_lt hle)] at h
    cases h
  have hread := holds_back (received_holds ps).1 offset.toNat
  rw [← take_slots _ (by rw [received_count]; omega), h, List.getElem?_take_of_lt (by omega),
    numbered_get, Option.map_some, List.length_reverse] at hread
  obtain ⟨p, hp, heq⟩ := Option.map_eq_some_iff.mp hread.symm
  exact ⟨p, hp, entry_from heq.symm⟩

def Shows (ps : List Packet) (offset : UInt32) (v : View) : Prop :=
  match ps.reverse[offset.toNat]? with
  | none => v.header = .noMessages ∧ v.body = [] ∧ v.displayedSeq = 0
  | some p => v.header = .sender p.fromNodeId p.channelIndex ∧ v.body = label p ∧
      v.displayedSeq = UInt32.ofNat (ps.length-offset.toNat)

/-- The labels show the entry, and `displayedSeq` is still to be set to its number. -/
def Reading (ps : List Packet) (offset : UInt32) (e : Entry) (v : View) : Prop :=
  Shows ps offset { v with displayedSeq := e.seq }

theorem shows_take {ps : List Packet} {offset : UInt32} {e : Entry}
    (h : takeAtOffset (received ps) offset = some e) (v : View)
    (hh : v.header = .sender e.fromNodeId e.channelIndex) (hb : v.body = bodyText e) :
    Reading ps offset e v := by
  obtain ⟨p, hp, hfrom⟩ := take_some h
  simp only [Reading, Shows, hp]
  exact ⟨by rw [hh, hfrom.node, hfrom.channel], by rw [hb, hfrom.text], hfrom.seq⟩

/-- Labels that carry the number of the entry now at the offset are up to date. -/
theorem shows_same {ps : List Packet} {offset : UInt32} {e : Entry} {v : View} {n : ℕ}
    (hfew : ps.length < 4294967296) (hn : n ≤ ps.length) (h : Shows (ps.take n) offset v)
    (he : takeAtOffset (received ps) offset = some e) (hseq : e.seq = v.displayedSeq) :
    Shows ps offset v := by
  obtain ⟨p, hp, hfrom⟩ := take_some he
  have hlt : offset.toNat < ps.length := by
    have := (List.getElem?_eq_some_iff.mp hp).1
    rwa [List.length_reverse] at this
  have hnow : v.displayedSeq.toNat = ps.length-offset.toNat := by
    rw [← hseq, hfrom.seq, UInt32.toNat_ofNat_of_lt' (by show _ < 4294967296; omega)]
  have hlen : (ps.take n).length = n := by rw [List.length_take, Nat.min_eq_left hn]
  -- the number shown then is the number there now, so nothing came in between
  have hall : n = ps.length := by
    rw [Shows] at h
    split at h
    · rw [h.2.2] at hnow
      rw [UInt32.toNat_zero] at hnow
      omega
    · next q hq =>
      have hlt' := (List.getElem?_eq_some_iff.mp hq).1
      rw [List.length_reverse, hlen] at hlt'
      rw [h.2.2, hlen, UInt32.toNat_ofNat_of_lt' (by show _ < 4294967296; omega)] at hnow
      omega
  rwa [hall, List.take_length] at h

/-- The labels show one of the packets, its text up to 200 bytes and up to a NUL, or that
there is none. -/
def Whole (ps : List Packet) (v : View) : Prop :=
  v.header = .noMessages ∧ v.body = [] ∨
    ∃ p ∈ ps, v.header = .sender p.fromNodeId p.channelIndex ∧ v.body = label p

theorem shows_whole {ps : List Packet} {offset : UInt32} {v : View} (h : Shows ps offset v) :
    Whole ps v := by
  rw [Shows] at h
  split at h
  · exact .inl ⟨h.1, h.2.1⟩
  · next p hp =>
    exact .inr ⟨p, List.mem_reverse.mp (List.mem_of_getElem? hp), h.1, h.2.1⟩

theorem whole_mono {ps qs : List Packet} {v : View} (hsub : ps ⊆ qs) (h : Whole ps v) :
    Whole qs v := by
  rcases h with h | ⟨p, hp, h⟩
  · exact .inl h
  · exact .inr ⟨p, hsub hp, h⟩

def Once (ps : List Packet) (offset : UInt32) (v : View) : Prop :=
  ∃ n ≤ ps.length, Shows (ps.take n) offset v

theorem once_publish {ps : List Packet} {offset : UInt32} {v : View} (h : Once ps offset v)
    (p : Packet) : Once (ps++[p]) offset v := by
  obtain ⟨n, hn, hshows⟩ := h
  refine ⟨n, by rw [List.length_append]; omega, ?_⟩
  rwa [List.take_append_of_le_length hn]

theorem once_now {ps : List Packet} {offset : UInt32} {v : View} (h : Shows ps offset v) :
    Once ps offset v :=
  ⟨ps.length, Nat.le_refl _, by rwa [List.take_length]⟩

def Labels (ps : List Packet) (v : View) : Pc → Prop
  | .render offset _ => offset = v.offset ∧ v.offset.toNat < min ps.length 4
  | .counting entry offset _ =>
    offset = v.offset ∧ Once ps offset { v with displayedSeq := entry.seq }
  | .peek => ps ≠ [] ∧ Once ps v.offset v
  | _ => Once ps v.offset v

structure Inv (s : Phone) : Prop where
  inbox : s.inbox = received s.packets
  router : OneShown s.router
  offset : s.view.offset = 0 ∨ s.view.offset.toNat < min s.packets.length 4
  sticky : s.view.stickyToNewest = true → s.view.offset = 0
  labels : Labels s.packets s.view s.pc
  whole : Whole s.packets s.view

theorem inv_boot : Inv boot where
  inbox := rfl
  router := init_one
  offset := .inl rfl
  sticky := fun _ => rfl
  labels := ⟨0, Nat.le_refl 0, rfl, rfl, rfl⟩
  whole := .inl ⟨rfl, rfl⟩

theorem labels_publish {ps : List Packet} {v : View} {pc : Pc} (p : Packet)
    (h : Labels ps v pc) : Labels (ps++[p]) v pc := by
  cases pc with
  | render offset refresh =>
    refine ⟨h.1, ?_⟩
    have := h.2
    rw [List.length_append]
    omega
  | counting entry offset refresh => exact ⟨h.1, once_publish h.2 p⟩
  | peek => exact ⟨by simp, once_publish h.2 p⟩
  | idle => exact once_publish (v := v) h p
  | txFooter => exact once_publish (v := v) h p
  | composing target => exact once_publish (v := v) h p
  | sending target text => exact once_publish (v := v) h p
  | clearing target sentSeq => exact once_publish (v := v) h p

theorem received_snoc (ps : List Packet) (p : Packet) :
    received (ps++[p]) = deliver (received ps) p :=
  List.foldl_concat ..

theorem inv_publish {s : Phone} (hi : Inv s) (p : Packet) :
    Inv { s with inbox := deliver s.inbox p, packets := s.packets++[p] } where
  inbox := by
    show deliver s.inbox p = _
    rw [hi.inbox, ← received_snoc]
  router := hi.router
  offset := by
    refine hi.offset.imp id (fun h => ?_)
    show s.view.offset.toNat < min (s.packets++[p]).length 4
    rw [List.length_append]
    omega
  sticky := hi.sticky
  labels := labels_publish p hi.labels
  whole := whole_mono (List.subset_append_left ..) hi.whole

theorem refresh_cases (s : Phone) :
    (s.router.hidden viewIndex = true ∧
      s.refresh = { s with view := { s.view with lastTxChangeSeq := 0 } }) ∨
    (s.router.hidden viewIndex = false ∧ s.inbox.latestSeq = 0 ∧ s.view.displayedSeq ≠ 0 ∧
      s.refresh = { s with pc := .render 0 true }) ∨
    (s.router.hidden viewIndex = false ∧ s.inbox.latestSeq = 0 ∧ s.view.displayedSeq = 0 ∧
      s.refresh = { s with pc := .txFooter }) ∨
    (s.router.hidden viewIndex = false ∧ s.inbox.latestSeq ≠ 0 ∧
      s.refresh = { s with
        view := { s.view with offset := if s.view.stickyToNewest then 0 else s.view.offset }
        pc := .peek }) := by
  rw [Phone.refresh]
  cases hhid : s.router.hidden viewIndex with
  | true => exact .inl ⟨rfl, rfl⟩
  | false =>
    by_cases hlatest : s.inbox.latestSeq = 0
    · by_cases hseq : s.view.displayedSeq = 0
      · simp [hlatest, hseq]
      · simp [hlatest, hseq]
    · simp [hlatest]

/-- A key event that the view gets either ends at once or asks for one of three things. -/
theorem apply_cases (s : Phone) (ev : KeyEvent) :
    s.apply ev = s ∨
    (ev.pressed = true ∧ ev.keycode = mokyaKeyOk ∧ s.apply ev = s.ok) ∨
    (s.inbox.count ≠ 0 ∧ ev.keycode ≠ mokyaKeyOk ∧ s.apply ev = s.up) ∨
    (s.inbox.count ≠ 0 ∧ ev.keycode ≠ mokyaKeyOk ∧ s.apply ev = s.down) := by
  rw [Phone.apply]
  by_cases hp : ev.pressed = false
  · exact .inl (if_pos hp)
  · rw [if_neg hp]
    have hpressed : ev.pressed = true := by simpa using hp
    by_cases hok : ev.keycode = mokyaKeyOk
    · exact .inr (.inl ⟨hpressed, hok, if_pos hok⟩)
    · rw [if_neg hok]
      by_cases hcount : s.inbox.count = 0
      · exact .inl (if_pos hcount)
      · rw [if_neg hcount]
        by_cases hup : ev.keycode = mokyaKeyUp
        · exact .inr (.inr (.inl ⟨hcount, hok, if_pos hup⟩))
        · rw [if_neg hup]
          by_cases hdown : ev.keycode = mokyaKeyDown
          · exact .inr (.inr (.inr ⟨hcount, hok, if_pos hdown⟩))
          · exact .inl (if_neg hdown)

theorem key_cases (s : Phone) (ev : KeyEvent) :
    (∃ r, (OneShown s.router → OneShown r) ∧ s.key ev = { s with router := r }) ∨
    (s.router.active = viewIndex ∧ s.key ev = s.apply ev) := by
  rcases route_cases ev s.router with ⟨next, hnext, hroute⟩ | hroute
  · refine .inl ⟨next, fun _ => hnext, ?_⟩
    simp only [Phone.key, hroute, reduceCtorEq, if_false]
  · by_cases hactive : s.router.active = viewIndex
    · refine .inr ⟨hactive, ?_⟩
      simp only [Phone.key, hroute, hactive, if_true]
    · refine .inl ⟨s.router, id, ?_⟩
      simp only [Phone.key, hroute, Option.some.injEq, hactive, if_false]

theorem compose_cases (s : Phone) (target : Entry) (locked : Bool) :
    s.compose target locked =
        { s with view := { s.view with footer := .imeEmpty }, pc := .idle } ∨
      s.draft ≠ [] ∧
        s.compose target locked =
          { s with pc := .sending target (s.draft.take messagesSendTextMax) } := by
  cases locked with
  | false => exact .inl rfl
  | true =>
    by_cases hnil : s.draft = []
    · refine .inl ?_
      simp [Phone.compose, hnil]
    · refine .inr ⟨hnil, ?_⟩
      simp [Phone.compose, hnil, messagesSendTextMax]

theorem tx_footer_frame (tx : TxStatus) (v : View) :
    maybeRenderTxStatusFooter tx v = { v with
      footer := (maybeRenderTxStatusFooter tx v).footer
      lastTxChangeSeq := (maybeRenderTxStatusFooter tx v).lastTxChangeSeq } := by
  simp only [maybeRenderTxStatusFooter]
  split_ifs <;> rfl

theorem after_render_labels {ps : List Packet} {v : View} {refresh : Bool}
    (h : Once ps v.offset v) : Labels ps v (afterRender refresh) := by
  cases refresh with
  | true => exact h
  | false => exact h

theorem inv_render {s : Phone} (hi : Inv s) (offset : UInt32) (refresh : Bool)
    (hpc : s.pc = .render offset refresh) : Inv (s.renderOffset offset refresh) := by
  have hlabels := hi.labels
  rw [hpc] at hlabels
  obtain ⟨rfl, hlt⟩ := hlabels
  simp only [Phone.renderOffset]
  split
  · next hnone =>
    rw [hi.inbox, take_none] at hnone
    omega
  · next e he =>
    rw [hi.inbox] at he
    have hread := shows_take he
      { s.view with header := .sender e.fromNodeId e.channelIndex, body := bodyText e } rfl rfl
    have hwhole := shows_whole hread
    exact ⟨hi.inbox, hi.router, hi.offset, hi.sticky, ⟨rfl, once_now hread⟩, hwhole⟩

theorem inv_counting {s : Phone} (hi : Inv s) (entry : Entry) (offset : UInt32) (refresh : Bool)
    (hpc : s.pc = .counting entry offset refresh) : Inv (s.renderFooter entry offset refresh) := by
  have hlabels := hi.labels
  rw [hpc] at hlabels
  obtain ⟨rfl, hshows⟩ := hlabels
  exact ⟨hi.inbox, hi.router, hi.offset, hi.sticky, after_render_labels hshows, hi.whole⟩

theorem inv_peek {s : Phone} (hi : Inv s) (hpc : s.pc = .peek) : Inv s.peek := by
  have hlabels := hi.labels
  rw [hpc] at hlabels
  obtain ⟨hne, hshows⟩ := hlabels
  have hpos := List.length_pos_iff.mpr hne
  have hlt : s.view.offset.toNat < min s.packets.length 4 := by
    rcases hi.offset with h | h
    · rw [h, UInt32.toNat_zero]
      omega
    · exact h
  rw [Phone.peek]
  split
  · exact ⟨hi.inbox, hi.router, hi.offset, hi.sticky, hshows, hi.whole⟩
  · split
    · exact ⟨hi.inbox, hi.router, hi.offset, hi.sticky, ⟨rfl, hlt⟩, hi.whole⟩
    · exact ⟨hi.inbox, hi.router, hi.offset, hi.sticky, hshows, hi.whole⟩

theorem inv_refresh {s : Phone} (hi : Inv s) (hfew : s.packets.length < 4294967296)
    (hpc : s.pc = .idle) : Inv s.refresh := by
  have hlabels := hi.labels
  rw [hpc] at hlabels
  obtain ⟨n, hn, hshows⟩ := hlabels
  rcases refresh_cases s with ⟨-, heq⟩ | ⟨-, hlatest, hseq, heq⟩ | ⟨-, -, -, heq⟩ | ⟨-, hlatest, heq⟩
  · rw [heq]
    refine ⟨hi.inbox, hi.router, hi.offset, hi.sticky, ?_, hi.whole⟩
    show Labels s.packets _ s.pc
    rw [hpc]
    exact ⟨n, hn, hshows⟩
  · -- nothing was received, so nothing is shown
    rw [hi.inbox, received_latest _ hfew] at hlatest
    rw [hlatest, List.take_nil] at hshows
    exact (hseq hshows.2.2).elim
  · rw [heq]
    exact ⟨hi.inbox, hi.router, hi.offset, hi.sticky, ⟨n, hn, hshows⟩, hi.whole⟩
  · rw [hi.inbox, ne_eq, received_latest _ hfew] at hlatest
    have hoff : (if s.view.stickyToNewest then 0 else s.view.offset) = s.view.offset := by
      cases hsticky : s.view.stickyToNewest with
      | true => exact (hi.sticky hsticky).symm
      | false => rfl
    rw [heq, hoff]
    exact ⟨hi.inbox, hi.router, hi.offset, hi.sticky, ⟨hlatest, n, hn, hshows⟩, hi.whole⟩

theorem count_pos {ps : List Packet} (h : (received ps).count ≠ 0) : 0 < ps.length := by
  have hcount := received_count ps
  rcases Nat.eq_zero_or_pos ps.length with h0 | h0
  · exact (h (UInt32.toNat_inj.mp (by rw [hcount, h0]; rfl))).elim
  · exact h0

theorem inv_up {s : Phone} (hi : Inv s) (hcount : s.inbox.count ≠ 0) : Inv s.up := by
  rw [hi.inbox] at hcount
  have hpos := count_pos hcount
  have hlt : s.up.view.offset.toNat < min s.packets.length 4 := by
    show (if s.view.offset+1 < s.inbox.count then s.view.offset+1 else s.view.offset).toNat < _
    split
    · next h =>
      rwa [UInt32.lt_iff_toNat_lt, hi.inbox, received_count] at h
    · rcases hi.offset with h | h
      · rw [h, UInt32.toNat_zero]
        omega
      · exact h
  exact ⟨hi.inbox, hi.router, .inr hlt, nofun, ⟨rfl, hlt⟩, hi.whole⟩

theorem inv_down {s : Phone} (hi : Inv s) (hcount : s.inbox.count ≠ 0) : Inv s.down := by
  rw [hi.inbox] at hcount
  have hpos := count_pos hcount
  have hle : s.down.view.offset.toNat ≤ s.view.offset.toNat := by
    show (if s.view.offset > 0 then s.view.offset-1 else s.view.offset).toNat ≤ _
    split
    · next h =>
      have hone : (1 : UInt32) ≤ s.view.offset := by
        rw [UInt32.le_iff_toNat_le]
        exact UInt32.lt_iff_toNat_lt.mp h
      rw [UInt32.toNat_sub_of_le _ _ hone]
      exact Nat.sub_le ..
    · exact Nat.le_refl _
  have hlt : s.down.view.offset.toNat < min s.packets.length 4 := by
    rcases hi.offset with h | h
    · rw [h, UInt32.toNat_zero] at hle
      omega
    · omega
  refine ⟨hi.inbox, hi.router, .inr hlt, fun hsticky => ?_, ⟨rfl, hlt⟩, hi.whole⟩
  by_contra hne
  have hkeep : s.down.view.stickyToNewest = s.view.stickyToNewest := if_neg hne
  have hzero := hi.sticky (hkeep ▸ hsticky)
  rw [hzero, UInt32.toNat_zero, Nat.le_zero] at hle
  exact hne (UInt32.toNat_inj.mp hle)

theorem inv_ok {s : Phone} (hi : Inv s) (hpc : s.pc = .idle) : Inv s.ok := by
  have hlabels := hi.labels
  rw [hpc] at hlabels
  rw [Phone.ok]
  split
  · refine ⟨hi.inbox, hi.router, hi.offset, hi.sticky, ?_, hi.whole⟩
    show Labels s.packets _ s.pc
    rw [hpc]
    exact hlabels
  · exact ⟨hi.inbox, hi.router, hi.offset, hi.sticky, hlabels, hi.whole⟩

theorem inv_key {s : Phone} (hi : Inv s) (hpc : s.pc = .idle) (ev : KeyEvent) :
    Inv (s.key ev) := by
  rcases key_cases s ev with ⟨r, hr, heq⟩ | ⟨-, heq⟩
  · rw [heq]
    exact ⟨hi.inbox, hr hi.router, hi.offset, hi.sticky, hi.labels, hi.whole⟩
  · rw [heq]
    rcases apply_cases s ev with heq | ⟨-, -, heq⟩ | ⟨hcount, -, heq⟩ | ⟨hcount, -, heq⟩
    · rwa [heq]
    · rw [heq]
      exact inv_ok hi hpc
    · rw [heq]
      exact inv_up hi hcount
    · rw [heq]
      exact inv_down hi hcount

theorem inv_go {s t : Phone} (hi : Inv s) (locked pushed : Bool)
    (hs : s.go locked pushed = some t) : Inv t := by
  have hlabels := hi.labels
  rw [Phone.go] at hs
  split at hs
  · cases hs
  all_goals
    rename_i hpc
    cases hs
  · exact inv_peek hi hpc
  · exact inv_render hi _ _ hpc
  · exact inv_counting hi _ _ _ hpc
  · rw [hpc] at hlabels
    rw [tx_footer_frame]
    exact ⟨hi.inbox, hi.router, hi.offset, hi.sticky, hlabels, hi.whole⟩
  all_goals rw [hpc] at hlabels
  · rcases compose_cases s _ locked with heq | ⟨-, heq⟩ <;> rw [heq] <;>
      exact ⟨hi.inbox, hi.router, hi.offset, hi.sticky, hlabels, hi.whole⟩
  · simp only [Phone.send]
    cases pushed with
    | true => exact ⟨hi.inbox, hi.router, hi.offset, hi.sticky, hlabels, hi.whole⟩
    | false => exact ⟨hi.inbox, hi.router, hi.offset, hi.sticky, hlabels, hi.whole⟩
  · exact ⟨hi.inbox, hi.router, hi.offset, hi.sticky, hlabels, hi.whole⟩

theorem inv_step {s t : Phone} (a : Act) (hi : Inv s) (hfew : s.packets.length < 4294967296)
    (hs : step s a = some t) : Inv t := by
  cases a with
  | publish p =>
    cases hs
    exact inv_publish hi p
  | txAck ipcSeq result errorReason packetId =>
    cases hs
    exact ⟨hi.inbox, hi.router, hi.offset, hi.sticky, hi.labels, hi.whole⟩
  | type text =>
    cases hs
    exact ⟨hi.inbox, hi.router, hi.offset, hi.sticky, hi.labels, hi.whole⟩
  | key ev =>
    cases hpc : s.pc with
    | idle =>
      simp only [step, hpc] at hs
      cases hs
      exact inv_key hi hpc ev
    | _ => simp [step, hpc] at hs
  | refresh =>
    cases hpc : s.pc with
    | idle =>
      simp only [step, hpc] at hs
      cases hs
      exact inv_refresh hi hfew hpc
    | _ => simp [step, hpc] at hs
  | go locked pushed => exact inv_go hi locked pushed hs

def Act.packets : Act → List Packet
  | .publish p => [p]
  | _ => []

def Act.statuses (s : Phone) : Act → List TxStatus
  | .txAck ipcSeq result errorReason packetId =>
    [txStatusPublish s.txStatus ipcSeq result errorReason packetId]
  | _ => []

theorem own_step {s t : Phone} (hs : (∃ ev, t = s.key ev) ∨ t = s.refresh ∨
    ∃ locked pushed, s.go locked pushed = some t) :
    t.packets = s.packets ∧ t.statuses = s.statuses := by
  have happly : ∀ ev, (s.apply ev).packets = s.packets ∧ (s.apply ev).statuses = s.statuses := by
    intro ev
    rcases apply_cases s ev with heq | ⟨-, -, heq⟩ | ⟨-, -, heq⟩ | ⟨-, -, heq⟩ <;> rw [heq]
    · exact ⟨rfl, rfl⟩
    · rw [Phone.ok]
      split <;> exact ⟨rfl, rfl⟩
    · exact ⟨rfl, rfl⟩
    · exact ⟨rfl, rfl⟩
  rcases hs with ⟨ev, rfl⟩ | rfl | ⟨locked, pushed, hs⟩
  · rcases key_cases s ev with ⟨r, -, heq⟩ | ⟨-, heq⟩ <;> rw [heq]
    · exact ⟨rfl, rfl⟩
    · exact happly ev
  · rcases refresh_cases s with ⟨-, heq⟩ | ⟨-, -, -, heq⟩ | ⟨-, -, -, heq⟩ | ⟨-, -, heq⟩ <;>
      rw [heq] <;> exact ⟨rfl, rfl⟩
  · rw [Phone.go] at hs
    split at hs <;> cases hs
    · rw [Phone.peek]
      split
      · exact ⟨rfl, rfl⟩
      · split <;> exact ⟨rfl, rfl⟩
    · rw [Phone.renderOffset]
      split <;> exact ⟨rfl, rfl⟩
    · exact ⟨rfl, rfl⟩
    · exact ⟨rfl, rfl⟩
    · rcases compose_cases s _ locked with heq | ⟨-, heq⟩ <;> rw [heq] <;> exact ⟨rfl, rfl⟩
    · cases pushed <;> exact ⟨rfl, rfl⟩
    · exact ⟨rfl, rfl⟩

theorem history_step {s t : Phone} (a : Act) (hs : step s a = some t) :
    t.packets = s.packets++a.packets ∧ t.statuses = s.statuses++a.statuses s := by
  have hown : t.packets = s.packets ∧ t.statuses = s.statuses →
      t.packets = s.packets++[] ∧ t.statuses = s.statuses++[] := by
    rw [List.append_nil, List.append_nil]
    exact id
  cases a with
  | publish p =>
    cases hs
    exact ⟨rfl, (List.append_nil _).symm⟩
  | txAck ipcSeq result errorReason packetId =>
    cases hs
    exact ⟨(List.append_nil _).symm, rfl⟩
  | type text =>
    cases hs
    exact hown ⟨rfl, rfl⟩
  | key ev =>
    simp only [step] at hs
    split at hs <;> cases hs
    exact hown (own_step (.inl ⟨ev, rfl⟩))
  | refresh =>
    simp only [step] at hs
    split at hs <;> cases hs
    exact hown (own_step (.inr (.inl rfl)))
  | go locked pushed => exact hown (own_step (.inr (.inr ⟨locked, pushed, hs⟩)))

theorem packets_step {s t : Phone} (a : Act) (hs : step s a = some t) :
    t.packets = s.packets++a.packets :=
  (history_step a hs).1

theorem packets_exec (acts : List Act) (s t : Phone) (he : exec step s acts = some t) :
    t.packets = s.packets++acts.flatMap Act.packets := by
  induction acts generalizing s with
  | nil =>
    rw [exec, Option.some.injEq] at he
    rw [he, List.flatMap_nil, List.append_nil]
  | cons a acts ih =>
    obtain ⟨u, hu, hrest⟩ := Option.bind_eq_some_iff.mp he
    rw [ih u hrest, packets_step a hu, List.flatMap_cons, List.append_assoc]

theorem inv_exec (acts : List Act) (s t : Phone) (hi : Inv s) (he : exec step s acts = some t)
    (hfew : t.packets.length < 4294967296) : Inv t := by
  induction acts generalizing s with
  | nil =>
    rw [exec, Option.some.injEq] at he
    exact he ▸ hi
  | cons a acts ih =>
    have hlen := congrArg List.length (packets_exec _ _ _ he)
    rw [List.length_append] at hlen
    obtain ⟨u, hu, hrest⟩ := Option.bind_eq_some_iff.mp he
    exact ih u (inv_step a hi (by omega) hu) hrest

/-- The labels show what stands at the offset now, or will once the render is through. -/
def Fresh (ps : List Packet) (v : View) : Pc → Prop
  | .render _ _ => True
  | .counting entry offset _ => Shows ps offset { v with displayedSeq := entry.seq }
  | .peek => True
  | _ => Shows ps v.offset v

def Phone.Current (s : Phone) : Prop := Fresh s.packets s.view s.pc

theorem current_refresh {s : Phone} (hi : Inv s) (hpc : s.pc = .idle)
    (h : s.Current ∨ s.router.active = viewIndex)
    (hfew : s.packets.length < 4294967296) : s.refresh.Current := by
  rcases refresh_cases s with ⟨hhid, heq⟩ | ⟨-, -, -, heq⟩ | ⟨-, hlatest, -, heq⟩ | ⟨-, -, heq⟩ <;>
    rw [heq]
  · rcases h with h | hactive
    · rw [Phone.Current, hpc] at h
      show Fresh s.packets _ s.pc
      rw [hpc]
      exact h
    · rw [(hi.router.shown viewIndex (by decide)).mpr hactive] at hhid
      cases hhid
  · trivial
  · rw [hi.inbox, received_latest _ hfew] at hlatest
    have hlabels := hi.labels
    rw [hpc, hlatest] at hlabels
    obtain ⟨n, -, hshows⟩ := hlabels
    rw [List.take_nil] at hshows
    show Shows s.packets s.view.offset s.view
    rwa [hlatest]
  · trivial

theorem current_peek {s : Phone} (hi : Inv s) (hpc : s.pc = .peek)
    (hfew : s.packets.length < 4294967296) : s.peek.Current := by
  have hlabels := hi.labels
  rw [hpc] at hlabels
  obtain ⟨hne, n, hn, hshows⟩ := hlabels
  have hpos := List.length_pos_iff.mpr hne
  rw [Phone.peek]
  split
  · next hnone =>
    rw [hi.inbox, take_none] at hnone
    rcases hi.offset with h | h
    · rw [h, UInt32.toNat_zero] at hnone
      omega
    · omega
  · next e he =>
    rw [hi.inbox] at he
    split
    · trivial
    · next hseq =>
      exact shows_same hfew hn hshows he (not_not.mp hseq)

theorem current_render {s : Phone} (hi : Inv s) (offset : UInt32) (refresh : Bool)
    (hpc : s.pc = .render offset refresh) : (s.renderOffset offset refresh).Current := by
  have hlabels := hi.labels
  rw [hpc] at hlabels
  obtain ⟨rfl, hlt⟩ := hlabels
  rw [Phone.renderOffset]
  split
  · next hnone =>
    rw [hi.inbox, take_none] at hnone
    omega
  · next e he =>
    rw [hi.inbox] at he
    exact shows_take he
      { s.view with header := .sender e.fromNodeId e.channelIndex, body := bodyText e } rfl rfl

theorem current_key {s : Phone} (ev : KeyEvent) (hpc : s.pc = .idle) (hc : s.Current) :
    (s.key ev).Current := by
  rw [Phone.Current, hpc] at hc
  rcases key_cases s ev with ⟨r, -, heq⟩ | ⟨-, heq⟩ <;> rw [heq]
  · rw [Phone.Current, hpc]
    exact hc
  · rcases apply_cases s ev with heq | ⟨-, -, heq⟩ | ⟨-, -, heq⟩ | ⟨-, -, heq⟩ <;> rw [heq]
    · rw [Phone.Current, hpc]
      exact hc
    · rw [Phone.ok]
      split
      · rw [Phone.Current, hpc]
        exact hc
      · exact hc
    · trivial
    · trivial

theorem current_step {s t : Phone} (a : Act) (hi : Inv s) (hc : s.Current)
    (hquiet : a.packets = []) (hfew : s.packets.length < 4294967296)
    (hs : step s a = some t) : t.Current := by
  cases a with
  | publish p => cases hquiet
  | txAck ipcSeq result errorReason packetId =>
    cases hs
    exact hc
  | type text =>
    cases hs
    exact hc
  | key ev =>
    simp only [step] at hs
    split at hs
    · next hpc =>
      cases hs
      exact current_key ev hpc hc
    · cases hs
  | refresh =>
    simp only [step] at hs
    split at hs
    · next hpc =>
      cases hs
      exact current_refresh hi hpc (.inl hc) hfew
    · cases hs
  | go locked pushed =>
    rw [Phone.Current] at hc
    simp only [step, Phone.go] at hs
    split at hs
    · cases hs
    all_goals
      rename_i hpc
      cases hs
    · exact current_peek hi hpc hfew
    · exact current_render hi _ _ hpc
    all_goals rw [hpc] at hc
    · have hlabels := hi.labels
      rw [hpc] at hlabels
      obtain ⟨rfl, -⟩ := hlabels
      simp only [Phone.Current, Phone.renderFooter]
      cases ‹Bool› with
      | true => exact hc
      | false => exact hc
    · rw [tx_footer_frame]
      exact hc
    · rcases compose_cases s _ locked with heq | ⟨-, heq⟩ <;> rw [heq] <;> exact hc
    · cases pushed with
      | true => exact hc
      | false => exact hc
    · exact hc

theorem current_exec (acts : List Act) (s t : Phone) (hi : Inv s) (hc : s.Current)
    (hquiet : ∀ a ∈ acts, a.packets = []) (hfew : s.packets.length < 4294967296)
    (he : exec step s acts = some t) : t.Current := by
  induction acts generalizing s with
  | nil =>
    rw [exec, Option.some.injEq] at he
    exact he ▸ hc
  | cons a acts ih =>
    obtain ⟨u, hu, hrest⟩ := Option.bind_eq_some_iff.mp he
    have hnone := hquiet a List.mem_cons_self
    have hlen := congrArg List.length (packets_step a hu)
    rw [hnone, List.append_nil] at hlen
    exact ih u (inv_step a hi hfew hu) (current_step a hi hc hnone hfew hu)
      (fun b hb => hquiet b (List.mem_cons_of_mem a hb)) (by omega) hrest

theorem after_refresh (acts rest : List Act) (s t : Phone) (he : exec step boot acts = some s)
    (hactive : s.router.active = viewIndex) (hr : exec step s (.refresh::rest) = some t)
    (hquiet : ∀ a ∈ rest, a.packets = [])
    (hfew : (acts.flatMap Act.packets).length < 4294967296) :
    Inv t ∧ t.Current ∧ t.packets = acts.flatMap Act.packets := by
  have hpackets : s.packets = acts.flatMap Act.packets := packets_exec _ _ _ he
  rw [← hpackets] at hfew ⊢
  have hs := inv_exec acts boot s inv_boot he hfew
  obtain ⟨u, hu, hrest⟩ := Option.bind_eq_some_iff.mp hr
  have hsame : u.packets = s.packets := (packets_step _ hu).trans (List.append_nil _)
  have hsame' : t.packets = s.packets := by
    rw [packets_exec _ _ _ hrest, List.flatMap_eq_nil_iff.mpr hquiet, List.append_nil, hsame]
  have hui := inv_step _ hs hfew hu
  have hcurrent : u.Current := by
    simp only [step] at hu
    split at hu
    · next hpc =>
      cases hu
      exact current_refresh hs hpc (.inr hactive) hfew
    · cases hu
  exact ⟨inv_exec rest u t hui hrest (hsame' ▸ hfew),
    current_exec rest u t hui hcurrent hquiet (hsame ▸ hfew) hrest, hsame'⟩

/-- In every state the labels show one received message, or that there is none. From a
refresh on screen until the next message comes in, whenever the task is through with a call,
they show the message that stands at the view's offset before the newest one, one of the
last four; a view that follows the newest message stands at it. -/
theorem screen_shows_message (acts : List Act) (s : Phone) (he : exec step boot acts = some s)
    (hfew : (acts.flatMap Act.packets).length < 4294967296) :
    Whole (acts.flatMap Act.packets) s.view ∧
    ∀ rest t, exec step s (.refresh::rest) = some t → s.router.active = viewIndex →
      acts.flatMap Act.packets ≠ [] → (∀ a ∈ rest, a.packets = []) → t.pc = .idle →
      ∃ p, (acts.flatMap Act.packets).reverse[t.view.offset.toNat]? = some p ∧
        t.view.header = .sender p.fromNodeId p.channelIndex ∧ t.view.body = label p ∧
        t.view.offset.toNat < 4 ∧ (t.view.stickyToNewest = true → t.view.offset = 0) := by
  have hpackets : s.packets = acts.flatMap Act.packets := packets_exec _ _ _ he
  refine ⟨hpackets ▸ (inv_exec acts boot s inv_boot he (hpackets ▸ hfew)).whole, ?_⟩
  intro rest t hr hactive hsome hquiet hidle
  obtain ⟨ht, hc, hsame⟩ := after_refresh acts rest s t he hactive hr hquiet hfew
  have hoffset := ht.offset
  rw [Phone.Current, hidle, hsame] at hc
  rw [hsame] at hoffset
  have hpos := List.length_pos_iff.mpr hsome
  have hlt : t.view.offset.toNat < min (acts.flatMap Act.packets).length 4 := by
    rcases hoffset with h | h
    · rw [h, UInt32.toNat_zero]
      omega
    · exact h
  have hget := List.getElem?_eq_getElem (l := (acts.flatMap Act.packets).reverse)
    (i := t.view.offset.toNat) (by rw [List.length_reverse]; omega)
  simp only [Fresh, Shows, hget] at hc
  exact ⟨_, hget, hc.1, hc.2.1, by omega, ht.sticky⟩

def funcPress : KeyEvent := ⟨mokyaKeyFunc, true, .hw, 0⟩

def greeting : Packet := ⟨17, 34, 3, some [104, 105], 2, fun _ => ⟨_, rfl, by decide⟩⟩

def opened : List Act := List.replicate 4 (.key funcPress)++[.publish greeting]

def rendered : List Act := List.replicate 4 (.go true true)

theorem idle_of_go_none {s : Phone} {locked pushed : Bool} (h : s.go locked pushed = none) :
    s.pc = .idle := by
  rw [Phone.go] at h
  split at h
  · assumption
  all_goals cases h

theorem first_message_shows :
    ∃ s t, exec step boot opened = some s ∧ exec step s (.refresh::rendered) = some t ∧
      t.view.header = .sender 17 3 ∧ t.view.body = [104, 105] := by
  have hopen : (exec step boot opened).map (fun s => s.router.active) = some viewIndex := by
    decide +kernel
  obtain ⟨s, hs, hactive⟩ := Option.map_eq_some_iff.mp hopen
  have hrun : ((exec step boot opened).bind (fun s => exec step s (.refresh::rendered))).map
      (fun t => (t.go true true).isNone) = some true := by decide +kernel
  rw [hs, Option.bind_some] at hrun
  obtain ⟨t, ht, hidle⟩ := Option.map_eq_some_iff.mp hrun
  have hpc : t.pc = .idle := idle_of_go_none (Option.isNone_iff_eq_none.mp hidle)
  obtain ⟨p, hp, hh, hb, -, -⟩ := (screen_shows_message opened s hs (by decide)).2 rendered t ht
    hactive (by decide) (by decide) hpc
  have hmem := List.mem_of_getElem? hp
  have hone : (opened.flatMap Act.packets).reverse = [greeting] := rfl
  rw [hone, List.mem_singleton] at hmem
  rw [hmem] at hh hb
  exact ⟨s, t, hs, ht, hh, hb⟩

end MokyaLora.MessagesView
