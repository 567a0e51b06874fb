import MokyaLora.BridgeTask

/-!
# What the bridge task delivers

In every run the tables are those that the popped messages make one after another,
whatever stands in the scratch buffer, and the host gets of each serial message, in the
order Core 0 pushed them, a first part: all of it, unless the port was unmounted meanwhile.
-/

set_option autoImplicit false

namespace MokyaLora.BridgeTask
open Lib.Schedule Lib.Fields Lib.Memory IpcRing BridgeDispatch

theorem dispatch_fill (m : Message) (scratch : Bytes) (s : Bridge) :
    dispatch m.header (fill scratch m.payload) s = dispatch m.header m.payload s := by
  rw [fill]
  generalize scratch.drop m.payload.length = stale
  have hid : m.header.msgId = m.msgId := rfl
  by_cases hnode : m.msgId = ipcMsgNodeUpdate ∧ nodeUpdateSize ≤ m.payload.length
  · have hbare := node_update_applied m [] s hnode.1 hnode.2
    rw [List.append_nil] at hbare
    rw [node_update_applied m stale s hnode.1 hnode.2, hbare]
  by_cases htext : m.msgId = ipcMsgRxText ∧ textOffset ≤ m.payload.length
  · have hbare := rx_text_applied m [] s htext.1 htext.2
    rw [List.append_nil] at hbare
    rw [rx_text_applied m stale s htext.1 htext.2, hbare]
  simp only [dispatch, header_len, hid, hnode, htext, if_false]
  have htake : (m.payload++stale).take m.payload.length = m.payload.take m.payload.length := by
    simp
  rw [htake]
  by_cases hack : m.msgId = ipcMsgTxAck ∧ txAckSize ≤ m.payload.length
  · have hlen : 8 ≤ m.payload.length := hack.2
    rw [getD_front _ _ 0 (by omega), getD_front _ _ 1 (by omega), getD_front _ _ 2 (by omega),
      field32_front _ _ 4 (by omega)]
  · simp only [hack, if_false]

theorem after_dispatch_fill (m : Message) (scratch : Bytes) :
    afterDispatch m.header (fill scratch m.payload) = afterDispatch m.header m.payload := by
  simp [afterDispatch, header_len, fill]

theorem after_dispatch_pending (m : Message) :
    (∃ p, afterDispatch m.header m.payload = .writing p ∧ serialPayload m.received = p) ∨
      (∀ p, afterDispatch m.header m.payload ≠ .writing p) ∧ serialPayload m.received = [] := by
  have hid : m.header.msgId = m.msgId := rfl
  simp only [afterDispatch, header_len, hid]
  by_cases hserial : m.msgId = BridgeDispatch.ipcMsgSerialBytes
  · by_cases hlen : 0 < m.payload.length
    · refine .inl ⟨m.payload, ?_, ?_⟩
      · simp [hserial, hlen, BridgeDispatch.ipcMsgSerialBytes, ipcMsgRebootNotify,
          ipcMsgNodeUpdate, ipcMsgTxAck, ipcMsgRxText]
      · simp [serialPayload, Message.received, Message.header, hserial,
          BridgeDispatch.ipcMsgSerialBytes, IpcRing.ipcMsgSerialBytes]
    · have hnil : m.payload = [] := List.eq_nil_of_length_eq_zero (by omega)
      refine .inr ⟨?_, ?_⟩
      · intro p
        simp [hserial, hnil, BridgeDispatch.ipcMsgSerialBytes, ipcMsgRebootNotify,
          ipcMsgNodeUpdate, ipcMsgTxAck, ipcMsgRxText]
      · simp [serialPayload, Message.received, hnil]
  · refine .inr ⟨?_, ?_⟩
    · intro p
      simp only [hserial, false_and, if_false]
      split
      · simp
      · split <;> simp
    · have hne : m.header.msgId ≠ IpcRing.ipcMsgSerialBytes := hserial
      simp [serialPayload, Message.received, hne]

theorem after_dispatch_reboot (m : Message) :
    afterDispatch m.header m.payload = .rebooting ↔ m.msgId = ipcMsgRebootNotify := by
  have hid : m.header.msgId = m.msgId := rfl
  simp only [afterDispatch, hid]
  constructor
  · intro h
    by_contra hne
    rw [if_neg hne] at h
    split at h
    · cases h
    · split at h <;> cases h
  · intro h
    rw [if_pos h]

theorem applied_snoc (l : List Message) (m : Message) (b : Bridge) :
    applied (l++[m]) b = dispatch m.header m.payload (applied l b) := by
  simp [applied]

/-- The host has a part of each payload; of the one in the loop it has the bytes before `p`. -/
def Pieces (R : Bytes → Bytes → Prop) (host : Bytes) (pc : Pc) (payloads : List Bytes) : Prop :=
  match pc with
  | .writing p => ∃ earlier parts q, payloads = earlier++[q++p] ∧
      List.Forall₂ R parts earlier ∧ host = parts.flatten++q
  | _ => ∃ parts, List.Forall₂ R parts payloads ∧ host = parts.flatten

def Pc.Writing (pc : Pc) : Prop := ∃ p, pc = .writing p

theorem pieces_quiet {R : Bytes → Bytes → Prop} {host : Bytes} {pc : Pc} {payloads : List Bytes}
    (hpc : ¬ pc.Writing) :
    Pieces R host pc payloads ↔ ∃ parts, List.Forall₂ R parts payloads ∧ host = parts.flatten := by
  cases pc with
  | writing p => exact (hpc ⟨p, rfl⟩).elim
  | _ => exact Iff.rfl

theorem forall₂_snoc {R : Bytes → Bytes → Prop} {a b : List Bytes} {x y : Bytes}
    (h : List.Forall₂ R a b) (hxy : R x y) : List.Forall₂ R (a++[x]) (b++[y]) :=
  List.rel_append h (.cons hxy .nil)

theorem pieces_close {R : Bytes → Bytes → Prop} {host p : Bytes} {payloads : List Bytes} (pc : Pc)
    (more : Bytes) (h : Pieces R host (.writing p) payloads) (hpc : ¬ pc.Writing)
    (hR : ∀ q, R (q++more) (q++p)) : Pieces R (host++more) pc payloads := by
  obtain ⟨earlier, parts, q, rfl, hparts, rfl⟩ := h
  rw [pieces_quiet hpc]
  exact ⟨parts++[q++more], forall₂_snoc hparts (hR q), by simp⟩

theorem pieces_go_on {R : Bytes → Bytes → Prop} {host p : Bytes} {payloads : List Bytes} (n : ℕ)
    (h : Pieces R host (.writing p) payloads) :
    Pieces R (host++p.take n) (.writing (p.drop n)) payloads := by
  obtain ⟨earlier, parts, q, rfl, hparts, rfl⟩ := h
  exact ⟨earlier, parts, q++p.take n, by simp, hparts, by simp⟩

theorem pieces_message {R : Bytes → Bytes → Prop} (hrefl : ∀ x, R x x) {host : Bytes} {pc : Pc}
    {payloads : List Bytes} (h : Pieces R host pc payloads) (hpc : ¬ pc.Writing) (m : Message) :
    Pieces R host (afterDispatch m.header m.payload) (payloads++[serialPayload m.received]) := by
  rw [pieces_quiet hpc] at h
  obtain ⟨parts, hparts, rfl⟩ := h
  rcases after_dispatch_pending m with ⟨p, hp, hserial⟩ | ⟨hnot, hserial⟩
  · rw [hp, hserial]
    exact ⟨payloads, parts, [], rfl, hparts, by simp⟩
  · rw [pieces_quiet (by rintro ⟨p, hp⟩; exact hnot p hp), hserial]
    exact ⟨parts++[[]], forall₂_snoc hparts (hrefl []), by simp⟩

def IsReboot (got : IpcMsgHeader × Bytes) : Prop := got.1.msgId = ipcMsgRebootNotify

structure Inv (R : Bytes → Bytes → Prop) (bridge : Bridge) (read : List Bytes) (s : Core1) :
    Prop where
  data : IpcRing.Inv ipcRingSlotCount s.data
  fresh : Fresh s.data
  uplink : Uplink read s.cmd
  tables : s.bridge = applied (s.data.pushed.take s.data.popped.length) bridge
  pieces : Pieces R s.host s.pc (s.data.popped.map serialPayload)
  total : s.gRxTotal = UInt32.ofNat s.host.length
  last : ∀ got ∈ s.data.popped.dropLast, ¬ IsReboot got
  running : s.pc = .rebooting ↔ ∃ got ∈ s.data.popped, IsReboot got

theorem inv_start (R : Bytes → Bytes → Prop) (scratch : Bytes) (bridge : Bridge) :
    Inv R bridge [] (Core1.init scratch bridge) where
  data := inv_init _
  fresh := trivial
  uplink := uplink_init
  tables := rfl
  pieces := ⟨[], .nil, rfl⟩
  total := rfl
  last := nofun
  running := by simp [Core1.init, System.init]

theorem Inv.before {R : Bytes → Bytes → Prop} {bridge : Bridge} {read : List Bytes} {s : Core1}
    (hi : Inv R bridge read s) (hpc : s.pc ≠ .rebooting) :
    ∀ got ∈ s.data.popped, ¬ IsReboot got :=
  fun got hg hr => hpc (hi.running.mpr ⟨got, hg, hr⟩)

theorem produce_frame (c : SlotCount) (s t : System Unit) (a : Act Unit) (ha : produces a)
    (hs : step c s a = some t) : t.popped = s.popped ∧ s.pushed <+: t.pushed := by
  cases a with
  | pop => cases ha
  | call p m =>
    simp only [step, Option.ite_none_right_eq_some, Option.some.injEq] at hs
    obtain ⟨-, rfl⟩ := hs
    exact ⟨rfl, List.prefix_refl _⟩
  | push p =>
    simp only [step, Option.ite_none_left_eq_some, Option.some.injEq] at hs
    obtain ⟨-, rfl⟩ := hs
    refine ⟨rfl, ?_⟩
    simp only [System.afterPush]
    split
    · exact List.prefix_append _ _
    · exact List.prefix_refl _

theorem take_prefix_eq {l l' : List Message} (n : ℕ) (h : l <+: l') (hn : n ≤ l.length) :
    l'.take n = l.take n := by
  obtain ⟨more, rfl⟩ := h
  exact List.take_append_of_le_length hn

theorem inv_core0 {R : Bytes → Bytes → Prop} {bridge : Bridge} {read : List Bytes} {s : Core1}
    (hi : Inv R bridge read s) (a : Act Unit) (data : System Unit) (ha : produces a)
    (hs : step ipcRingSlotCount s.data a = some data) : Inv R bridge read { s with data } := by
  obtain ⟨hpopped, hpushed⟩ := produce_frame _ _ _ a ha hs
  refine ⟨inv_step _ _ _ a hi.data (fresh_orderly _ _ hi.fresh a) hs, fresh_step _ _ _ a hi.fresh hs,
    hi.uplink, ?_, ?_, hi.total, ?_, ?_⟩
  · show s.bridge = _
    rw [hpopped, take_prefix_eq _ hpushed hi.data.below]
    exact hi.tables
  · show Pieces R s.host s.pc _
    rw [hpopped]
    exact hi.pieces
  · show ∀ got ∈ data.popped.dropLast, _
    rw [hpopped]
    exact hi.last
  · show s.pc = _ ↔ ∃ got ∈ data.popped, _
    rw [hpopped]
    exact hi.running

/-- The command ring and the counters of the port are no concern of the way down. -/
theorem inv_cmd {R : Bytes → Bytes → Prop} {bridge : Bridge} {read read' : List Bytes} {s : Core1}
    (hi : Inv R bridge read s) (cmd : CmdState) (pc : Pc) (scratch : Bytes) (gTxTotal : UInt32)
    (hup : Uplink read' cmd) (hs : ¬ s.pc.Writing) (hpc : ¬ pc.Writing)
    (hrun : s.pc = .rebooting ↔ pc = .rebooting) :
    Inv R bridge read' { s with cmd, pc, scratch, gTxTotal } := by
  exact ⟨hi.data, hi.fresh, hup, hi.tables,
    (pieces_quiet hpc).mpr ((pieces_quiet hs).mp hi.pieces), hi.total, hi.last,
    hrun.symm.trans hi.running⟩

theorem inv_pop_quiet {R : Bytes → Bytes → Prop} {bridge : Bridge} {read : List Bytes} {s : Core1}
    (hi : Inv R bridge read s) (pc : Pc) (hs : s.pc = .data) (hpc : pc = .data ∨ pc = .log)
    (h : (popStep ipcRingSlotCount s.data.ring s.data.consumer).2.2.getD none = none) :
    Inv R bridge read { s with
      data := s.data.afterPop (popStep ipcRingSlotCount s.data.ring s.data.consumer), pc } := by
  have hpopped := pop_no_message h
  have hquiet : ¬ s.pc.Writing := by rw [hs]; rintro ⟨p, ⟨⟩⟩
  have hquiet' : ¬ pc.Writing := by rcases hpc with rfl | rfl <;> rintro ⟨p, ⟨⟩⟩
  refine ⟨inv_pop _ _ hi.data, fresh_step _ _ _ .pop hi.fresh rfl, hi.uplink, ?_, ?_, hi.total,
    ?_, ?_⟩
  · show s.bridge = _
    rw [hpopped]
    exact hi.tables
  · show Pieces R s.host pc _
    rw [hpopped]
    exact (pieces_quiet hquiet').mpr ((pieces_quiet hquiet).mp hi.pieces)
  · show ∀ got ∈ (s.data.afterPop _).popped.dropLast, _
    rw [hpopped]
    exact hi.last
  · show pc = _ ↔ ∃ got ∈ (s.data.afterPop _).popped, _
    rw [hpopped, ← hi.running, hs]
    rcases hpc with rfl | rfl <;> simp

theorem inv_dispatched {R : Bytes → Bytes → Prop} (hrefl : ∀ x, R x x) {bridge : Bridge}
    {read : List Bytes} {s : Core1} (hi : Inv R bridge read s) (got : IpcMsgHeader × Bytes)
    (hs : s.pc = .data)
    (h : (popStep ipcRingSlotCount s.data.ring s.data.consumer).2.2 = some (some got)) :
    Inv R bridge read (Core1.dispatched { s with
      data := s.data.afterPop (popStep ipcRingSlotCount s.data.ring s.data.consumer) } got) := by
  obtain ⟨hv, hgot, hpopped⟩ := pop_returns hi.data h
  have hquiet : ¬ s.pc.Writing := by rw [hs]; rintro ⟨p, ⟨⟩⟩
  have hbefore := hi.before (by rw [hs]; exact nofun)
  generalize hm : s.data.pushed[s.data.popped.length] = m at hgot
  subst hgot
  refine ⟨inv_pop _ _ hi.data, fresh_step _ _ _ .pop hi.fresh rfl, hi.uplink, ?_, ?_, hi.total,
    ?_, ?_⟩
  · show dispatch m.header (fill s.scratch m.payload) s.bridge =
      applied (s.data.pushed.take (s.data.afterPop _).popped.length) bridge
    rw [hpopped, List.length_append, List.length_singleton, List.take_add_one,
      List.getElem?_eq_getElem hv, hm, Option.toList_some, applied_snoc, ← hi.tables, dispatch_fill]
  · show Pieces R s.host (afterDispatch m.header (fill s.scratch m.payload))
      ((s.data.afterPop _).popped.map serialPayload)
    rw [hpopped, List.map_append, List.map_singleton, after_dispatch_fill]
    exact pieces_message hrefl hi.pieces hquiet m
  · show ∀ g ∈ (s.data.afterPop _).popped.dropLast, _
    rw [hpopped, List.dropLast_concat]
    exact hbefore
  · show afterDispatch m.header (fill s.scratch m.payload) = _ ↔
      ∃ g ∈ (s.data.afterPop _).popped, _
    rw [after_dispatch_fill, after_dispatch_reboot, hpopped]
    constructor
    · exact fun hreboot => ⟨m.received, by simp, hreboot⟩
    · rintro ⟨g, hg, hreboot⟩
      rcases List.mem_append.mp hg with hg | hg
      · exact (hbefore g hg hreboot).elim
      · rw [List.mem_singleton.mp hg] at hreboot
        exact hreboot

theorem inv_pop_data {R : Bytes → Bytes → Prop} (hrefl : ∀ x, R x x) {bridge : Bridge}
    {read : List Bytes} {s : Core1} (hi : Inv R bridge read s) (hs : s.pc = .data) :
    Inv R bridge read s.popData := by
  rcases pop_data_cases s with ⟨hret, heq⟩ | ⟨hret, heq⟩ | ⟨got, hret, heq⟩
  · rw [heq]
    have hq := inv_pop_quiet hi .data hs (.inl rfl) (by rw [hret]; rfl)
    rwa [← hs] at hq
  · rw [heq]
    exact inv_pop_quiet hi .log hs (.inr rfl) (by rw [hret]; rfl)
  · rw [heq]
    exact inv_dispatched hrefl hi got hs hret

theorem inv_pop_log {R : Bytes → Bytes → Prop} {bridge : Bridge} {read : List Bytes} {s : Core1}
    (hi : Inv R bridge read s) (hs : s.pc = .log) : Inv R bridge read s.popLog := by
  obtain ⟨hout, hdata, hbridge⟩ := pop_log_frame s
  simp only [Core1.outside, Outside.mk.injEq] at hout
  have hquiet : ¬ s.pc.Writing := by rw [hs]; rintro ⟨p, ⟨⟩⟩
  have hquiet' : ¬ s.popLog.pc.Writing := by
    rcases pop_log_pc s with h | h <;> rw [h]
    · exact hquiet
    · rintro ⟨p, ⟨⟩⟩
  refine ⟨hdata ▸ hi.data, hdata ▸ hi.fresh, hout.1 ▸ hi.uplink, ?_, ?_, ?_, hdata ▸ hi.last, ?_⟩
  · rw [hbridge, hdata]
    exact hi.tables
  · rw [hout.2.1, hdata]
    exact (pieces_quiet hquiet').mpr ((pieces_quiet hquiet).mp hi.pieces)
  · rw [hout.2.2.1, hout.2.1]
    exact hi.total
  · rw [hdata, ← hi.running, hs]
    rcases pop_log_pc s with h | h <;> simp [h, hs]

theorem inv_forward {R : Bytes → Bytes → Prop} {bridge : Bridge} {read : List Bytes} {s t : Core1}
    (hi : Inv R bridge read s) (n : ℕ) (hpc : s.pc = .forwarding n) (hs : s.forward n = some t) :
    Inv R bridge read t := by
  have hquiet : ¬ s.pc.Writing := by rw [hpc]; rintro ⟨p, ⟨⟩⟩
  rw [Core1.forward] at hs
  split at hs
  · split at hs
    · simp only [Option.some.injEq] at hs
      subst hs
      exact inv_cmd hi s.cmd .status s.scratch _ hi.uplink hquiet (by rintro ⟨p, ⟨⟩⟩)
        (by simp [hpc])
    · obtain ⟨cmd, hcmd, rfl⟩ := Option.map_eq_some_iff.mp hs
      have hup := uplink_step read s.cmd cmd .retry hi.uplink hcmd
      rw [show CmdAct.retry.chunk = [] from rfl, List.append_nil] at hup
      exact inv_cmd hi cmd s.pc s.scratch s.gTxTotal hup hquiet hquiet Iff.rfl
  · obtain ⟨cmd, hcmd, rfl⟩ := Option.map_eq_some_iff.mp hs
    have hup := uplink_step read s.cmd cmd (.task .bridge) hi.uplink hcmd
    rw [show (CmdAct.task .bridge).chunk = [] from rfl, List.append_nil] at hup
    exact inv_cmd hi cmd s.pc s.scratch s.gTxTotal hup hquiet hquiet Iff.rfl

theorem inv_iterate {R : Bytes → Bytes → Prop} (hrefl : ∀ x, R x x) {bridge : Bridge}
    {read : List Bytes} {s t : Core1} (hi : Inv R bridge read s) (hs : s.iterate = some t) :
    Inv R bridge read t := by
  unfold Core1.iterate at hs
  cases hpc : s.pc with
  | data =>
    simp only [hpc, Option.some.injEq] at hs
    exact hs ▸ inv_pop_data hrefl hi hpc
  | log =>
    simp only [hpc, Option.some.injEq] at hs
    exact hs ▸ inv_pop_log hi hpc
  | forwarding n =>
    simp only [hpc] at hs
    exact inv_forward hi n hpc hs
  | status =>
    simp only [hpc, Option.some.injEq] at hs
    subst hs
    exact inv_cmd hi s.cmd .data s.scratch s.gTxTotal hi.uplink (by rw [hpc]; rintro ⟨p, ⟨⟩⟩)
      (by rintro ⟨p, ⟨⟩⟩) (by simp [hpc])
  | rebooting =>
    simp only [hpc, Option.some.injEq] at hs
    exact hs ▸ hi
  | writing p => simp [hpc] at hs
  | cdcOut => simp [hpc] at hs

theorem inv_read {R : Bytes → Bytes → Prop} {bridge : Bridge} {read : List Bytes} {s t : Core1}
    (hi : Inv R bridge read s) (hpc : s.pc = .cdcOut) (available : Bytes)
    (hs : s.read available = some t) :
    Inv R bridge (read++(BridgeAct.readCdc available).chunk) t := by
  have hquiet : ¬ s.pc.Writing := by rw [hpc]; rintro ⟨p, ⟨⟩⟩
  cases available with
  | nil =>
    simp only [Core1.read, if_true, Option.some.injEq] at hs
    subst hs
    rw [BridgeAct.chunk, List.append_nil]
    exact inv_cmd hi s.cmd .status s.scratch s.gTxTotal hi.uplink hquiet (by rintro ⟨p, ⟨⟩⟩)
      (by simp [hpc])
  | cons b rest =>
    simp only [Core1.read, reduceCtorEq, if_false] at hs
    obtain ⟨cmd, hcmd, rfl⟩ := Option.map_eq_some_iff.mp hs
    have hup := uplink_step read s.cmd cmd _ hi.uplink hcmd
    exact inv_cmd hi cmd _ _ s.gTxTotal hup hquiet (by rintro ⟨p, ⟨⟩⟩) (by simp [hpc])

theorem inv_write {R : Bytes → Bytes → Prop} (hrefl : ∀ x, R x x) {bridge : Bridge}
    {read : List Bytes} {s t : Core1} (hi : Inv R bridge read s) (p : Bytes)
    (hpc : s.pc = .writing p) (mounted : Bool) (avail wrote : ℕ)
    (hcut : mounted = false → ∀ q p : Bytes, R q (q++p))
    (hs : s.write p mounted avail wrote = some t) : Inv R bridge read t := by
  have hpieces := hi.pieces
  rw [hpc] at hpieces
  have hrun : Pc.cdcOut = .rebooting ↔ ∃ got ∈ s.data.popped, IsReboot got := by
    rw [← hi.running, hpc]
    simp
  rw [Core1.write] at hs
  split at hs
  · next hmounted =>
    simp only [Option.some.injEq] at hs
    subst hs
    have hclose := pieces_close .cdcOut [] hpieces (by rintro ⟨p, ⟨⟩⟩)
      (fun q => by rw [List.append_nil]; exact hcut hmounted q p)
    rw [List.append_nil] at hclose
    exact ⟨hi.data, hi.fresh, hi.uplink, hi.tables, hclose, hi.total, hi.last, hrun⟩
  · split at hs
    · simp only [Option.some.injEq] at hs
      exact hs ▸ hi
    · simp only [Option.ite_none_right_eq_some, Option.some.injEq] at hs
      obtain ⟨hwrote, rfl⟩ := hs
      have htotal : s.gRxTotal+UInt32.ofNat wrote = UInt32.ofNat (s.host++p.take wrote).length := by
        rw [hi.total, List.length_append, List.length_take, UInt32.ofNat_add,
          Nat.min_eq_left (by omega)]
      by_cases hall : p.length ≤ wrote
      · simp only [hall, if_true]
        refine ⟨hi.data, hi.fresh, hi.uplink, hi.tables, ?_, htotal, hi.last, hrun⟩
        show Pieces R (s.host++p.take wrote) .cdcOut _
        rw [List.take_of_length_le hall]
        exact pieces_close .cdcOut p hpieces (by rintro ⟨p, ⟨⟩⟩) (fun q => hrefl (q++p))
      · simp only [hall, if_false]
        refine ⟨hi.data, hi.fresh, hi.uplink, hi.tables, pieces_go_on wrote hpieces, htotal,
          hi.last, ?_⟩
        rw [← hrun]
        simp

/-- An unmounted port cuts a message short, so the relation has to bear that. -/
def Bears (R : Bytes → Bytes → Prop) (_ : Core1) : BridgeAct → Prop
  | .write mounted _ _ => mounted = false → ∀ q p : Bytes, R q (q++p)
  | _ => True

theorem inv_bridge_step {R : Bytes → Bytes → Prop} (hrefl : ∀ x, R x x) {bridge : Bridge}
    {read : List Bytes} {s t : Core1} (a : BridgeAct) (hi : Inv R bridge read s)
    (ha : Bears R s a) (hs : bridgeStep s a = some t) : Inv R bridge (read++a.chunk) t := by
  cases a with
  | core0 b =>
    simp only [bridgeStep, Option.ite_none_right_eq_some] at hs
    obtain ⟨hb, hs⟩ := hs
    obtain ⟨data, hdata, rfl⟩ := Option.map_eq_some_iff.mp hs
    show Inv R bridge (read++[]) _
    rw [List.append_nil]
    exact inv_core0 hi b data hb hdata
  | core0Log b =>
    simp only [bridgeStep, Option.ite_none_right_eq_some] at hs
    obtain ⟨-, hs⟩ := hs
    obtain ⟨log, -, rfl⟩ := Option.map_eq_some_iff.mp hs
    show Inv R bridge (read++[]) _
    rw [List.append_nil]
    exact ⟨hi.data, hi.fresh, hi.uplink, hi.tables, hi.pieces, hi.total, hi.last, hi.running⟩
  | other b =>
    simp only [bridgeStep, Option.ite_none_right_eq_some] at hs
    obtain ⟨hb, hs⟩ := hs
    obtain ⟨cmd, hcmd, rfl⟩ := Option.map_eq_some_iff.mp hs
    have hup := uplink_step read s.cmd cmd b hi.uplink hcmd
    have hnil : b.chunk = [] := by cases b <;> first | rfl | cases hb
    rw [hnil] at hup
    exact ⟨hi.data, hi.fresh, hup, hi.tables, hi.pieces, hi.total, hi.last, hi.running⟩
  | iterate =>
    show Inv R bridge (read++[]) t
    rw [List.append_nil]
    exact inv_iterate hrefl hi hs
  | write mounted avail wrote =>
    show Inv R bridge (read++[]) t
    rw [List.append_nil]
    simp only [bridgeStep] at hs
    split at hs
    · next p hpc => exact inv_write hrefl hi p hpc mounted avail wrote ha hs
    · cases hs
  | readCdc available =>
    simp only [bridgeStep] at hs
    split at hs
    · next hpc => exact inv_read hi hpc available hs
    · cases hs

def reads (acts : List BridgeAct) : List Bytes := acts.flatMap BridgeAct.chunk

theorem inv_run {R : Bytes → Bytes → Prop} (hrefl : ∀ x, R x x) (bridge : Bridge)
    (acts : List BridgeAct) (read : List Bytes) (s t : Core1) (hi : Inv R bridge read s)
    (ha : Along bridgeStep (Bears R) s acts) (he : exec bridgeStep s acts = some t) :
    Inv R bridge (read++reads acts) t := by
  induction acts generalizing read s with
  | nil =>
    simp only [exec, Option.some.injEq] at he
    rw [reads, List.flatMap_nil, List.append_nil]
    exact he ▸ hi
  | cons a acts ih =>
    obtain ⟨u, hu, ht⟩ := Option.bind_eq_some_iff.mp he
    rw [reads, List.flatMap_cons, ← List.append_assoc]
    exact ih _ u (inv_bridge_step hrefl a hi ha.1 hu) (ha.2 u hu) ht

theorem inv_run_init {R : Bytes → Bytes → Prop} (hrefl : ∀ x, R x x) (scratch : Bytes)
    (bridge : Bridge) (acts : List BridgeAct) (t : Core1)
    (ha : Along bridgeStep (Bears R) (Core1.init scratch bridge) acts)
    (he : exec bridgeStep (Core1.init scratch bridge) acts = some t) :
    Inv R bridge (reads acts) t := by
  have h := inv_run hrefl bridge acts [] _ t (inv_start R scratch bridge) ha he
  rwa [List.nil_append] at h

theorem bears_front (acts : List BridgeAct) (s : Core1) :
    Along bridgeStep (Bears (· <+: ·)) s acts := by
  refine along_of_forall _ _ (fun s a => ?_) acts s
  cases a with
  | write mounted avail wrote => exact fun _ q p => List.prefix_append q p
  | _ => trivial

theorem bears_eq (acts : List BridgeAct) (s : Core1) (h : Along bridgeStep Mounted s acts) :
    Along bridgeStep (Bears (· = ·)) s acts := by
  refine along_imp_of_invariant bridgeStep Mounted (Bears (· = ·)) (fun _ => True)
    (fun _ _ _ _ _ _ => trivial) (fun s a _ ha => ?_) acts s trivial h
  cases a with
  | write mounted avail wrote =>
    intro hm
    rw [show mounted = true from ha] at hm
    cases hm
  | _ => trivial

theorem pieces_eq {host : Bytes} {pc : Pc} {popped : List (IpcMsgHeader × Bytes)}
    (h : Pieces (· = ·) host pc (popped.map serialPayload)) :
    host++pc.pending = serialStream popped := by
  rw [serialStream, List.flatMap_def]
  cases pc with
  | writing p =>
    obtain ⟨earlier, parts, q, hpayloads, hparts, rfl⟩ := h
    rw [List.forall₂_eq_eq_eq] at hparts
    rw [hpayloads, hparts]
    simp [Pc.pending]
  | _ =>
    obtain ⟨parts, hparts, rfl⟩ := h
    rw [List.forall₂_eq_eq_eq] at hparts
    rw [← hparts]
    exact List.append_nil _

theorem pieces_front {host : Bytes} {pc : Pc} {payloads : List Bytes}
    (h : Pieces (· <+: ·) host pc payloads) :
    ∃ parts, List.Forall₂ (· <+: ·) parts payloads ∧ host = parts.flatten := by
  cases pc with
  | writing p =>
    have hclose := pieces_close .cdcOut [] h (by rintro ⟨p, ⟨⟩⟩)
      (fun q => by rw [List.append_nil]; exact List.prefix_append q p)
    rw [List.append_nil] at hclose
    exact hclose
  | _ => exact h

/-- In every run of the task, Core 0, the LVGL task and the USB port the popped messages are
the first pushed ones, the tables are what those messages make in that order from their own
bytes, the host has a first part of each serial payload in order and the counter counts its
bytes, nothing is popped after the reboot message, and the reads of the port are on the
command ring as they were read. While the port stays mounted no byte is missing. -/
theorem bridge_in_order (scratch : Bytes) (bridge : Bridge) (acts : List BridgeAct) (t : Core1)
    (he : exec bridgeStep (Core1.init scratch bridge) acts = some t) :
    t.data.popped <+: t.data.pushed.map Message.received ∧
    t.bridge = applied (t.data.pushed.take t.data.popped.length) bridge ∧
    (∃ parts, List.Forall₂ (· <+: ·) parts (t.data.popped.map serialPayload) ∧
      t.host = parts.flatten) ∧
    t.gRxTotal = UInt32.ofNat t.host.length ∧
    (∀ got ∈ t.data.popped.dropLast, ¬ IsReboot got) ∧
    serials t.cmd.sys.pushed++t.cmd.forwarding.toList = numbered 0 (reads acts) ∧
    (Along bridgeStep Mounted (Core1.init scratch bridge) acts →
      t.host++t.pc.pending = serialStream t.data.popped) := by
  have hi := inv_run_init List.prefix_refl scratch bridge acts t (bears_front acts _) he
  refine ⟨inv_popped_first hi.data, hi.tables, pieces_front hi.pieces, hi.total, hi.last,
    hi.uplink.stream, fun hmounted => ?_⟩
  exact pieces_eq (inv_run_init (fun _ => rfl) scratch bridge acts t
    (bears_eq acts _ hmounted) he).pieces

def noMessages : Bridge := ⟨NodesDb.empty, MessagesInbox.empty, ⟨0, 0, 0, 0, 0⟩, [], false⟩

def serialOfThree : Message := ⟨BridgeDispatch.ipcMsgSerialBytes, 0, [7, 8, 9], by decide⟩

/-- Core 0 pushes three bytes; the endpoint takes two of them, then the last one, while one
byte waits on the way up. -/
def bothWays : List BridgeAct :=
  [.core0 (.call () serialOfThree), .core0 (.push ()), .iterate, .core0 (.push ()),
    .core0 (.push ()), .core0 (.push ()), .iterate, .iterate, .iterate,
    .write true 2 2, .write true 0 0, .write true 64 1, .readCdc [5], .iterate, .iterate,
    .iterate, .iterate]

theorem both_ways_in_order : ∃ t, exec bridgeStep (Core1.init [] noMessages) bothWays = some t ∧
    t.data.popped = [serialOfThree.received] ∧ t.host++t.pc.pending = [7, 8, 9] ∧
    serials t.cmd.sys.pushed++t.cmd.forwarding.toList = [serialBytes 0 [5]] := by
  have hrun : (exec bridgeStep (Core1.init [] noMessages) bothWays).map
      (fun t => t.data.popped) = some [serialOfThree.received] := by decide +kernel
  obtain ⟨t, ht, hpopped⟩ := Option.map_eq_some_iff.mp hrun
  obtain ⟨-, -, -, -, -, hup, hdown⟩ := bridge_in_order [] noMessages bothWays t ht
  refine ⟨t, ht, hpopped, ?_, hup⟩
  rw [hdown (by simp [bothWays, Along, Mounted]), hpopped]
  rfl

end MokyaLora.BridgeTask
