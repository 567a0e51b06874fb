import MokyaLora.IpcRingCmd

/-!
# The bytes of the USB port on the command ring

`bridge_task` puts what one `tud_cdc_read` returns in one message and repeats the push
until it returns true. The text messages of the LVGL task stand between its messages,
and a full ring makes it call the push again and again. The stream of its messages is
the stream of the reads for all that: each read once, in the order of the reads, under
consecutive sequence numbers.
-/

set_option autoImplicit false

namespace MokyaLora.IpcRing
open Lib.Schedule

def CmdAct.chunk : CmdAct → List (List UInt8)
  | .readCdc available => [available.take ipcMsgPayloadMax]
  | _ => []

def chunks (acts : List CmdAct) : List (List UInt8) := acts.flatMap CmdAct.chunk

def numbered : ℕ → List (List UInt8) → List Message
  | _, [] => []
  | n, chunk::rest => serialBytes (UInt8.ofNat n) chunk::numbered (n+1) rest

def IsSerial (m : Message) : Prop := m.msgId = ipcMsgSerialBytes

instance : DecidablePred IsSerial := fun m => decEq m.msgId ipcMsgSerialBytes

def serials (l : List Message) : List Message := l.filter (fun m => IsSerial m)

def serialPayload (got : IpcMsgHeader × List UInt8) : List UInt8 :=
  if got.1.msgId = ipcMsgSerialBytes then got.2 else []

def serialStream (popped : List (IpcMsgHeader × List UInt8)) : List UInt8 :=
  popped.flatMap serialPayload

def PushPc.message : PushPc → Option Message
  | .idle => none
  | .called m => some m
  | .headLoaded m _ => some m
  | .tailLoaded m _ _ => some m
  | .written m _ => some m

theorem numbered_snoc (n : ℕ) (cs : List (List UInt8)) (c : List UInt8) :
    numbered n (cs++[c]) = numbered n cs++[serialBytes (UInt8.ofNat (n+cs.length)) c] := by
  induction cs generalizing n with
  | nil => rfl
  | cons d cs ih =>
    rw [List.cons_append, numbered, ih, numbered, List.length_cons, List.cons_append]
    rw [show n+1+cs.length = n+(cs.length+1) by omega]

theorem numbered_length (n : ℕ) (cs : List (List UInt8)) : (numbered n cs).length = cs.length := by
  induction cs generalizing n with
  | nil => rfl
  | cons c cs ih => rw [numbered, List.length_cons, ih, List.length_cons]

theorem numbered_serial (n : ℕ) (cs : List (List UInt8)) : ∀ m ∈ numbered n cs, IsSerial m := by
  induction cs generalizing n with
  | nil => simp [numbered]
  | cons c cs ih =>
    intro m hm
    rw [numbered, List.mem_cons] at hm
    rcases hm with rfl | hm
    · rfl
    · exact ih (n+1) m hm

theorem serial_bytes_cut (seq : UInt8) (available : List UInt8) :
    serialBytes seq (available.take ipcMsgPayloadMax) = serialBytes seq available := by
  simp [serialBytes, List.take_take]

theorem serials_append (a b : List Message) : serials (a++b) = serials a++serials b :=
  List.filter_append ..

theorem serials_of_serial (m : Message) (h : IsSerial m) : serials [m] = [m] := by
  simp [serials, h]

theorem serials_of_other (m : Message) (h : ¬ IsSerial m) : serials [m] = [] := by
  simp [serials, h]

theorem serial_stream_serials (l : List Message) :
    serialStream (l.map Message.received) = (serials l).flatMap Message.payload := by
  induction l with
  | nil => rfl
  | cons m l ih =>
    rw [List.map_cons, serialStream, List.flatMap_cons, ← serialStream, ih]
    by_cases hm : IsSerial m
    · have hid : m.header.msgId = ipcMsgSerialBytes := hm
      rw [show m::l = [m]++l from rfl, serials_append, serials_of_serial m hm,
        List.flatMap_append, List.flatMap_singleton]
      simp [serialPayload, Message.received, hid]
    · have hid : m.header.msgId ≠ ipcMsgSerialBytes := hm
      rw [show m::l = [m]++l from rfl, serials_append, serials_of_other m hm, List.nil_append]
      simp [serialPayload, Message.received, hid]

theorem numbered_payloads (n : ℕ) (cs : List (List UInt8))
    (h : ∀ c ∈ cs, c.length ≤ ipcMsgPayloadMax) :
    (numbered n cs).flatMap Message.payload = cs.flatten := by
  induction cs generalizing n with
  | nil => rfl
  | cons c cs ih =>
    rw [numbered, List.flatMap_cons, ih (n+1) (fun d hd => h d (List.mem_cons_of_mem c hd)),
      List.flatten_cons]
    have hc : (serialBytes (UInt8.ofNat n) c).payload = c := List.take_of_length_le (h c (by simp))
    rw [hc]

theorem serial_stream_front (a b : List (IpcMsgHeader × List UInt8)) (h : a <+: b) :
    serialStream a <+: serialStream b := by
  obtain ⟨c, rfl⟩ := h
  rw [serialStream, serialStream, List.flatMap_append]
  exact List.prefix_append _ _

theorem chunk_fits (acts : List CmdAct) : ∀ c ∈ chunks acts, c.length ≤ ipcMsgPayloadMax := by
  intro c hc
  obtain ⟨a, -, hca⟩ := List.mem_flatMap.mp hc
  cases a with
  | readCdc available =>
    rw [CmdAct.chunk, List.mem_singleton] at hca
    rw [hca]
    exact List.length_take_le _ _
  | _ => simp [CmdAct.chunk] at hca

theorem push_step_message (c : SlotCount) (r : Ring) (pc : PushPc) :
    ((pushStep c r pc).2.1.message = none ∨ (pushStep c r pc).2.1.message = pc.message) ∧
      ((pushStep c r pc).2.2 = some true → ∃ m head, pc = .written m head) := by
  cases pc with
  | idle => simp [pushStep]
  | called m => by_cases h : ipcMsgPayloadMax < m.payload.length <;>
      simp [pushStep, h, PushPc.message]
  | headLoaded m head => simp [pushStep, PushPc.message]
  | tailLoaded m head tail => by_cases h : c.n ≤ (head-tail).toNat <;>
      simp [pushStep, h, PushPc.message]
  | written m head => simp [pushStep, PushPc.message]

theorem after_push_logs {P : Type} [DecidableEq P] (c : SlotCount) (s : System P) (p : P)
    (h : (pushStep c s.ring (s.producer p)).2.2 = some true) :
    ∃ m, (s.producer p).message = some m ∧
      (s.afterPush p (pushStep c s.ring (s.producer p))).pushed = s.pushed++[m] := by
  obtain ⟨m, head, hpc⟩ := (push_step_message c s.ring (s.producer p)).2 h
  refine ⟨m, by rw [hpc]; rfl, ?_⟩
  rw [System.afterPush, h, if_pos rfl, System.publishedBy, hpc]

/-- The ring after task `p` has called the push. -/
def System.called {P : Type} [DecidableEq P] (s : System P) (p : P) (m : Message) : System P :=
  { s with producer := Function.update s.producer p (.called m) }

def CmdState.resumed (s : CmdState) (p : Core1Task) : System Core1Task :=
  s.sys.afterPush p (pushStep ipcRingSlotCount s.sys.ring (s.sys.producer p))

theorem after_push_quiet {P : Type} [DecidableEq P] (c : SlotCount) (s : System P) (p : P)
    (h : (pushStep c s.ring (s.producer p)).2.2 ≠ some true) :
    (s.afterPush p (pushStep c s.ring (s.producer p))).pushed = s.pushed := by
  simp only [System.afterPush, h, if_false]

/-- After the reads `read` all of them but the one being forwarded are published. -/
structure Uplink (read : List (List UInt8)) (s : CmdState) : Prop where
  stream : serials s.sys.pushed++s.forwarding.toList = numbered 0 read
  seq : s.txSeq = UInt8.ofNat (serials s.sys.pushed).length
  bridge : ∀ m, (s.sys.producer .bridge).message = some m → s.forwarding = some m
  lvgl : ∀ m, (s.sys.producer .lvgl).message = some m → ¬ IsSerial m

theorem uplink_init : Uplink [] CmdState.init := by
  refine ⟨rfl, rfl, ?_, ?_⟩ <;> intro m hm <;> cases hm

theorem Uplink.next {read : List (List UInt8)} {s : CmdState} (h : Uplink read s)
    (hf : s.forwarding = none) : s.txSeq = UInt8.ofNat read.length := by
  have hlen := congrArg List.length h.stream
  rw [hf, Option.toList_none, List.append_nil, numbered_length] at hlen
  rw [h.seq, hlen]

theorem Uplink.forwarded {read : List (List UInt8)} {s : CmdState} (h : Uplink read s)
    (m : Message) (hf : s.forwarding = some m) : IsSerial m := by
  refine numbered_serial 0 read m ?_
  rw [← h.stream, hf]
  simp

theorem uplink_read (read : List (List UInt8)) (s : CmdState) (h : Uplink read s)
    (available : List UInt8) (hf : s.forwarding = none) :
    Uplink (read++[available.take ipcMsgPayloadMax])
      { s with
        sys := s.sys.called .bridge (serialBytes s.txSeq available)
        forwarding := some (serialBytes s.txSeq available) } := by
  have hnext := h.next hf
  have hstream := h.stream
  rw [hf, Option.toList_none, List.append_nil] at hstream
  refine ⟨?_, h.seq, ?_, ?_⟩
  · rw [numbered_snoc, Nat.zero_add, serial_bytes_cut, ← hnext, ← hstream]
    rfl
  · intro m hm
    simpa [System.called, PushPc.message] using hm
  · intro m hm
    exact h.lvgl m (by simpa [System.called] using hm)

theorem uplink_call (read : List (List UInt8)) (s : CmdState) (h : Uplink read s) (m : Message)
    (hf : s.forwarding = some m) :
    Uplink read { s with sys := s.sys.called .bridge m } := by
  refine ⟨h.stream, h.seq, ?_, ?_⟩
  · intro k hk
    simp only [System.called, Function.update_self, PushPc.message, Option.some.injEq] at hk
    exact hk ▸ hf
  · intro k hk
    exact h.lvgl k (by simpa [System.called] using hk)

theorem uplink_send (read : List (List UInt8)) (s : CmdState) (h : Uplink read s)
    (m : Message) (sSeq : UInt8) (hm : ¬ IsSerial m) :
    Uplink read { s with sys := s.sys.called .lvgl m, sSeq := sSeq } := by
  refine ⟨h.stream, h.seq, ?_, ?_⟩
  · intro k hk
    exact h.bridge k (by simpa [System.called] using hk)
  · intro k hk
    simp only [System.called, Function.update_self, PushPc.message, Option.some.injEq] at hk
    exact hk ▸ hm

theorem uplink_producers (read : List (List UInt8)) (s : CmdState) (h : Uplink read s)
    (p : Core1Task) :
    (∀ m, ((s.resumed p).producer .bridge).message = some m → s.forwarding = some m) ∧
      ∀ m, ((s.resumed p).producer .lvgl).message = some m → ¬ IsSerial m := by
  have hown := (push_step_message ipcRingSlotCount s.sys.ring (s.sys.producer p)).1
  cases p with
  | bridge =>
    refine ⟨fun m hm => ?_, fun m hm => h.lvgl m (by simpa [CmdState.resumed, System.afterPush] using hm)⟩
    simp only [CmdState.resumed, System.afterPush, Function.update_self] at hm
    rcases hown with ho | ho
    · rw [ho] at hm; cases hm
    · exact h.bridge m (ho ▸ hm)
  | lvgl =>
    refine ⟨fun m hm => h.bridge m (by simpa [CmdState.resumed, System.afterPush] using hm), fun m hm => ?_⟩
    simp only [CmdState.resumed, System.afterPush, Function.update_self] at hm
    rcases hown with ho | ho
    · rw [ho] at hm; cases hm
    · exact h.lvgl m (ho ▸ hm)

theorem uplink_bridge_done (read : List (List UInt8)) (s : CmdState) (h : Uplink read s)
    (hret : (pushStep ipcRingSlotCount s.sys.ring (s.sys.producer .bridge)).2.2 = some true) :
    Uplink read { s with sys := s.resumed .bridge, forwarding := none, txSeq := s.txSeq+1 } := by
  obtain ⟨m, hm, hpushed⟩ := after_push_logs ipcRingSlotCount s.sys .bridge hret
  have hf := h.bridge m hm
  have hserial := serials_of_serial m (h.forwarded m hf)
  have hstream := h.stream
  rw [hf] at hstream
  refine ⟨?_, ?_, ?_, (uplink_producers read s h .bridge).2⟩
  · show serials (s.resumed _).pushed++[] = _
    rw [CmdState.resumed, hpushed, serials_append, hserial, List.append_nil]
    exact hstream
  · show s.txSeq+1 = UInt8.ofNat (serials (s.resumed _).pushed).length
    rw [CmdState.resumed, hpushed, serials_append, hserial, List.length_append, List.length_singleton, h.seq,
      UInt8.ofNat_add]
    rfl
  · intro k hk
    obtain ⟨m', head, hpc⟩ := (push_step_message ipcRingSlotCount s.sys.ring _).2 hret
    simp [CmdState.resumed, System.afterPush, hpc, pushStep, PushPc.message] at hk

theorem uplink_quiet (read : List (List UInt8)) (s : CmdState) (h : Uplink read s) (p : Core1Task)
    (hlog : serials (s.resumed p).pushed = serials s.sys.pushed) :
    Uplink read { s with sys := s.resumed p } := by
  obtain ⟨hb, hl⟩ := uplink_producers read s h p
  refine ⟨?_, ?_, hb, hl⟩
  · show serials (s.resumed _).pushed++_ = _
    rw [hlog]
    exact h.stream
  · show s.txSeq = UInt8.ofNat (serials (s.resumed _).pushed).length
    rw [hlog]
    exact h.seq

theorem uplink_task (read : List (List UInt8)) (s : CmdState) (h : Uplink read s) (p : Core1Task) :
    Uplink read (s.afterAct (s.resumed p) (.task p)) := by
  cases p with
  | bridge =>
    by_cases hret : s.returned .bridge = some true
    · simp only [CmdState.afterAct, hret, if_true]
      exact uplink_bridge_done read s h hret
    · simp only [CmdState.afterAct, hret, if_false]
      exact uplink_quiet read s h .bridge
        (congrArg serials (after_push_quiet ipcRingSlotCount s.sys .bridge hret))
  | lvgl =>
    refine uplink_quiet read s h .lvgl ?_
    by_cases hret : (pushStep ipcRingSlotCount s.sys.ring (s.sys.producer .lvgl)).2.2 = some true
    · obtain ⟨m, hm, hpushed⟩ := after_push_logs ipcRingSlotCount s.sys .lvgl hret
      rw [CmdState.resumed, hpushed, serials_append, serials_of_other m (h.lvgl m hm), List.append_nil]
    · rw [CmdState.resumed, after_push_quiet ipcRingSlotCount s.sys .lvgl hret]

theorem uplink_step (read : List (List UInt8)) (s t : CmdState) (a : CmdAct) (h : Uplink read s)
    (hs : cmdStep s a = some t) : Uplink (read++a.chunk) t := by
  obtain ⟨act, ha, hm⟩ := Option.bind_eq_some_iff.mp hs
  obtain ⟨sys, hsys, rfl⟩ := Option.map_eq_some_iff.mp hm
  cases a with
  | readCdc available =>
    simp only [CmdState.ringAct, Option.ite_none_right_eq_some, Option.some.injEq] at ha
    obtain ⟨⟨hf, -⟩, rfl⟩ := ha
    simp only [step, Option.ite_none_right_eq_some, Option.some.injEq] at hsys
    obtain ⟨-, rfl⟩ := hsys
    exact uplink_read read s h available hf
  | retry =>
    obtain ⟨m, hf, rfl⟩ := Option.map_eq_some_iff.mp ha
    simp only [step, Option.ite_none_right_eq_some, Option.some.injEq] at hsys
    obtain ⟨-, rfl⟩ := hsys
    show Uplink (read++[]) _
    rw [List.append_nil]
    exact uplink_call read s h m hf
  | messagesSendText toNodeId channelIndex wantAck text =>
    simp only [CmdState.ringAct, Option.some.injEq] at ha
    subst ha
    simp only [step, Option.ite_none_right_eq_some, Option.some.injEq] at hsys
    obtain ⟨-, rfl⟩ := hsys
    show Uplink (read++[]) _
    rw [List.append_nil]
    exact uplink_send read s h _ _ (by simp [IsSerial, sendText, ipcCmdSendText, ipcMsgSerialBytes])
  | task p =>
    simp only [CmdState.ringAct, Option.some.injEq] at ha
    subst ha
    simp only [step, Option.ite_none_left_eq_some, Option.some.injEq] at hsys
    obtain ⟨-, rfl⟩ := hsys
    show Uplink (read++[]) _
    rw [List.append_nil]
    exact uplink_task read s h p
  | core0 =>
    simp only [CmdState.ringAct, Option.some.injEq] at ha
    subst ha
    simp only [step, Option.some.injEq] at hsys
    subst hsys
    show Uplink (read++[]) _
    rw [List.append_nil]
    exact ⟨h.stream, h.seq, h.bridge, h.lvgl⟩

theorem uplink_exec (acts : List CmdAct) (read : List (List UInt8)) (s t : CmdState)
    (h : Uplink read s) (he : exec cmdStep s acts = some t) : Uplink (read++chunks acts) t := by
  induction acts generalizing read s with
  | nil =>
    simp only [exec, Option.some.injEq] at he
    rw [chunks, List.flatMap_nil, List.append_nil]
    exact he ▸ h
  | cons a acts ih =>
    obtain ⟨u, hu, ht⟩ := Option.bind_eq_some_iff.mp he
    rw [chunks, List.flatMap_cons, ← List.append_assoc]
    exact ih _ u (uplink_step read s u a h hu) ht

/-- However the two tasks and Core 0 interleave, the serial messages on the ring and the one
being forwarded are the reads of the USB port in order, one message each, numbered modulo
256. If the slot writes are orderly, Core 0 reads a prefix of the bytes, and all of them
when the ring is empty and nothing is being forwarded. -/
theorem uplink_in_order (acts : List CmdAct) (t : CmdState)
    (he : exec cmdStep CmdState.init acts = some t) :
    serials t.sys.pushed++t.forwarding.toList = numbered 0 (chunks acts) ∧
    (Along cmdStep CmdOrderly CmdState.init acts →
      serialStream t.sys.popped <+: (chunks acts).flatten ∧
      (t.sys.ring.pending = 0 → t.forwarding = none →
        serialStream t.sys.popped = (chunks acts).flatten)) := by
  have hup := (uplink_exec acts [] _ t uplink_init he).stream
  rw [List.nil_append] at hup
  refine ⟨hup, fun ho => ?_⟩
  have hi := cmd_inv acts t ho he
  have hbytes := numbered_payloads 0 (chunks acts) (chunk_fits acts)
  rw [← hup, List.flatMap_append] at hbytes
  constructor
  · rw [← hbytes]
    refine (serial_stream_front _ _ (inv_popped_first hi)).trans ?_
    rw [serial_stream_serials]
    exact List.prefix_append _ _
  · intro hempty hnone
    rw [inv_drained hi hempty, serial_stream_serials, ← hbytes, hnone]
    simp

def twoReads : List CmdAct :=
  [.readCdc [1, 2, 3], .task .bridge, .task .bridge, .task .bridge, .task .bridge,
    .messagesSendText 0xFFFFFFFF 0 true [104, 105], .task .lvgl, .task .lvgl, .task .lvgl,
    .task .lvgl, .readCdc [4, 5], .task .bridge, .core0, .core0, .core0, .core0]

theorem two_reads_in_order : ∃ t, exec cmdStep CmdState.init twoReads = some t ∧
    serials t.sys.pushed++t.forwarding.toList = [serialBytes 0 [1, 2, 3], serialBytes 1 [4, 5]] ∧
    serialStream t.sys.popped <+: [1, 2, 3, 4, 5] := by
  have hrun : (exec cmdStep CmdState.init twoReads).map (fun t => t.sys.popped.length) =
      some 1 := by decide +kernel
  obtain ⟨t, ht, -⟩ := Option.map_eq_some_iff.mp hrun
  obtain ⟨hstream, horder⟩ := uplink_in_order twoReads t ht
  exact ⟨t, ht, hstream, (horder (by decide +kernel)).1⟩

end MokyaLora.IpcRing
