import MokyaLora.KeyInjectFrame

/-!
# Joining a stream of injected keys

The frames a host sends (`mokya_rtt.py`), received by a parser that may still be inside
an older frame. At most a whole payload and its CRC byte are taken for the older frame;
then the parser hunts, and no frame holds the magic bytes but at its front.
-/

set_option autoImplicit false

namespace MokyaLora.KeyInjectSync
open Lib.Fields Lib.Memory KeyInjectFrame

def hostCrcBit (crc : ℕ) : ℕ :=
  if crc &&& 0x80 ≠ 0 then ((crc <<< 1) ^^^ 0x07) &&& 0xFF else (crc <<< 1) &&& 0xFF

def hostCrc8 (data : Bytes) : ℕ :=
  data.foldl (fun crc b => hostCrcBit^[8] (crc ^^^ b.toNat)) 0

def buildFrame (type : UInt8) (payload : Bytes) : Option Bytes :=
  if maxPayload < payload.length then none
  else
    let body := type::UInt8.ofNat payload.length::payload
    some (magic0::magic1::(body++[UInt8.ofNat (hostCrc8 body)]))

inductive HostEvent where
  | key (keycode : ℕ) (pressed : Bool) (flags : ℕ)
  | forceSave
  | nop
  deriving DecidableEq, Repr

def keyByte (keycode : ℕ) (pressed : Bool) : UInt8 :=
  UInt8.ofNat (keycode % 128) ||| (if pressed then 0x80 else 0x00)

def HostEvent.frame : HostEvent → Frame
  | .key keycode pressed flags => ⟨0x01, [keyByte keycode pressed, UInt8.ofNat (flags % 256)]⟩
  | .forceSave => ⟨0x02, []⟩
  | .nop => ⟨0x03, []⟩

def HostEvent.send (e : HostEvent) : Bytes :=
  (buildFrame e.frame.type e.frame.payload).getD []

def sent (es : List HostEvent) : Bytes := es.flatMap HostEvent.send

/-- The flags leave the two upper bits alone. -/
def HostEvent.Plain : HostEvent → Prop
  | .key _ _ flags => flags < 0x40
  | _ => True

theorem host_crc_bit : ∀ crc : UInt8, hostCrcBit crc.toNat = (crcBit crc).toNat :=
  byte_forall (by decide +kernel)

theorem host_crc_bits (crc : UInt8) (n : ℕ) :
    hostCrcBit^[n] crc.toNat = (crcBit^[n] crc).toNat := by
  induction n generalizing crc with
  | zero => rfl
  | succ n ih => rw [Function.iterate_succ_apply, Function.iterate_succ_apply, host_crc_bit, ih]

theorem host_crc8 (data : Bytes) : hostCrc8 data = (crc8 data).toNat := by
  have h : ∀ crc : UInt8, data.foldl (fun crc b => hostCrcBit^[8] (crc ^^^ b.toNat)) crc.toNat =
      (data.foldl crcByte crc).toNat := by
    induction data with
    | nil => exact fun crc => rfl
    | cons b data ih =>
      intro crc
      simp only [List.foldl_cons, crcByte]
      rw [← UInt8.toNat_xor, host_crc_bits, ih]
  exact h 0

theorem frame_fits (e : HostEvent) : e.frame.Fits := by
  cases e <;> simp [HostEvent.frame, Frame.Fits, maxPayload]

theorem send_eq (e : HostEvent) : e.send = e.frame.encode := by
  have hfits := frame_fits e
  simp only [Frame.Fits] at hfits
  rw [HostEvent.send, buildFrame, if_neg (by omega)]
  simp [Frame.encode, host_crc8]

theorem sent_cons (e : HostEvent) (es : List HostEvent) :
    sent (e::es) = e.frame.encode++sent es := by
  simp [sent, send_eq]

theorem sent_append (es fs : List HostEvent) : sent (es++fs) = sent es++sent fs :=
  List.flatMap_append

theorem sent_wire (es : List HostEvent) : sent es = wire (es.map (fun e => ([], e.frame))) := by
  induction es with
  | nil => rfl
  | cons e es ih => rw [sent_cons, ih, List.map_cons, wire_cons, List.nil_append]

theorem encode_tail_clean (e : HostEvent) (h : e.Plain) : NoPair (e.frame.encode.drop 1) := by
  have h1 : magic0 ≠ 1 ∧ magic0 ≠ 2 ∧ magic0 ≠ 3 ∧ magic0 ≠ 0 := by decide
  cases e with
  | key keycode pressed flags =>
    have hflags : flags % 256 < 0x40 := lt_of_le_of_lt (Nat.mod_le _ _) h
    have hmagic : magic0 ≠ UInt8.ofNat (flags % 256) ∧ magic1 ≠ UInt8.ofNat (flags % 256) := by
      constructor <;> intro heq <;> have hnat := congrArg UInt8.toNat heq <;>
        simp [magic0, magic1] at hnat <;> omega
    simp [NoPair, HostEvent.frame, Frame.encode, List.infix_cons_iff, hmagic, h1]
  | forceSave => simp [NoPair, HostEvent.frame, Frame.encode, List.infix_cons_iff, h1]
  | nop => simp [NoPair, HostEvent.frame, Frame.encode, List.infix_cons_iff, h1]

/-- Behind the first byte the rest of a frame holds no magic bytes; whole frames follow. -/
theorem drop_sent (es : List HostEvent) (hes : ∀ e ∈ es, e.Plain) (j : ℕ) (hj : 1 ≤ j)
    (hlen : j ≤ (sent es).length) :
    ∃ m gap, (sent es).drop j = gap++sent (es.drop m) ∧ NoPair gap := by
  induction es generalizing j with
  | nil =>
    simp [sent] at hlen
    omega
  | cons e es ih =>
    rw [sent_cons] at hlen ⊢
    by_cases hin : j ≤ e.frame.encode.length
    · refine ⟨1, e.frame.encode.drop j, ?_, ?_⟩
      · rw [List.drop_append_of_le_length hin]
        rfl
      · refine (encode_tail_clean e (hes e (by simp))).suffix ?_
        obtain ⟨k, rfl⟩ := Nat.exists_eq_add_of_le hj
        rw [← List.drop_drop]
        exact List.drop_suffix k _
    · obtain ⟨m, gap, hdrop, hgap⟩ := ih (fun x hx => hes x (by simp [hx]))
        (j-e.frame.encode.length) (by omega) (by simp at hlen; omega)
      refine ⟨m+1, gap, ?_, hgap⟩
      rw [List.drop_append, List.drop_eq_nil_of_le (by omega), List.nil_append, hdrop]
      rfl

theorem crc_ends (p : Parser) (b : UInt8) (hs : p.state = .crc) :
    (push p [b]).1.state = .magic0 := by
  simp [push, pushByte, hs]

theorem settles (p : Parser) (hp : p.Wf) (s : Bytes) (hs : [magic0, magic1] <+: s)
    (hlen : 17 ≤ s.length) :
    Hunting p ∨ ∃ j, 1 ≤ j ∧ j ≤ 17 ∧ (push p (s.take j)).1.state = .magic0 := by
  obtain ⟨rest, rfl⟩ := hs
  cases hstate : p.state with
  | magic0 => exact .inl (.inl hstate)
  | magic1 => exact .inl (.inr hstate)
  | type =>
    have hbig : maxPayload < magic1.toNat := by decide
    exact .inr ⟨2, by omega, by omega, by simp [push, pushByte, hstate, hbig]⟩
  | len =>
    have hbig : maxPayload < magic0.toNat := by decide
    exact .inr ⟨1, by omega, by omega, by simp [push, pushByte, hstate, hbig]⟩
  | crc => exact .inr ⟨1, by omega, by omega, crc_ends p magic0 hstate⟩
  | payload =>
    simp only [Parser.Wf, hstate, maxPayload] at hp
    have hmissing : p.len.toNat-p.idx.toNat < ([magic0, magic1]++rest).length := by omega
    refine .inr ⟨p.len.toNat-p.idx.toNat+1, by omega, by omega, ?_⟩
    obtain ⟨hcrc, -⟩ := push_payload p
      (([magic0, magic1]++rest).take (p.len.toNat-p.idx.toNat)) hstate
      (by simp; omega) (by rw [List.length_take]; omega)
    rw [List.take_add_one, List.getElem?_eq_getElem hmissing, push_append]
    exact crc_ends _ _ hcrc

theorem push_sent (p : Parser) (gap : Bytes) (es : List HostEvent) (hp : Hunting p)
    (hgap : NoPair (p.pending++gap)) :
    (push p (gap++sent es)).2 = es.map HostEvent.frame := by
  cases es with
  | nil => simpa [sent] using (push_garbage p gap hp hgap).2
  | cons e es =>
    obtain ⟨hstate, hframe⟩ := push_frame p gap e.frame hp hgap (frame_fits e)
    have hrest := push_wire (push p (gap++e.frame.encode)).1
      (es.map (fun e => ([], e.frame))) hstate
      (by simp [NoPair, frame_fits])
    rw [sent_cons, ← List.append_assoc, push_append, hframe, sent_wire, hrest.2]
    simp

/-- Within 17 bytes the parser is back at the stream: it hunts, and what is left of the
frame it is in holds no magic bytes. -/
theorem locks (p : Parser) (hp : p.Wf) (es : List HostEvent) (hes : ∀ e ∈ es, e.Plain)
    (hlen : 17 ≤ (sent es).length) :
    ∃ j m gap, j ≤ 17 ∧ (sent es).drop j = gap++sent (es.drop m) ∧
      Hunting (push p ((sent es).take j)).1 ∧
      NoPair ((push p ((sent es).take j)).1.pending++gap) := by
  have hfront : [magic0, magic1] <+: sent es := by
    cases es with
    | nil => simp [sent] at hlen
    | cons e es => exact ⟨_, by rw [sent_cons]; rfl⟩
  rcases settles p hp (sent es) hfront hlen with hhunt | ⟨j, hj, hmax, hstate⟩
  · refine ⟨0, 0, [], by omega, rfl, hhunt, ?_⟩
    rcases hhunt with hs | hs <;> simp [NoPair, Parser.pending, hs, List.infix_cons_iff]
  · obtain ⟨m, gap, hdrop, hgap⟩ := drop_sent es hes j hj (by omega)
    refine ⟨j, m, gap, hmax, hdrop, .inl hstate, ?_⟩
    simpa [Parser.pending, hstate] using hgap

theorem resynchronises_from (p : Parser) (hp : p.Wf) (pre post : List HostEvent)
    (hpre : ∀ e ∈ pre, e.Plain) (hlen : 17 ≤ (sent pre).length) :
    (push (push p (sent pre)).1 (sent post)).2 = post.map HostEvent.frame := by
  obtain ⟨j, m, gap, hj, hdrop, hhunt, hgap⟩ := locks p hp pre hpre hlen
  have hwhole := push_sent (push p ((sent pre).take j)).1 gap (pre.drop m++post) hhunt hgap
  have hpart := push_sent (push p ((sent pre).take j)).1 gap (pre.drop m) hhunt hgap
  rw [sent_append, ← List.append_assoc, push_append, hpart, List.map_append] at hwhole
  have hstate : (push (push p ((sent pre).take j)).1 (gap++sent (pre.drop m))).1 =
      (push p (sent pre)).1 := by
    conv_rhs => rw [← List.take_append_drop j (sent pre), hdrop, push_append]
  rw [hstate] at hwhole
  exact List.append_cancel_left hwhole

theorem late_output (p : Parser) (hp : p.Wf) (es : List HostEvent) (hes : ∀ e ∈ es, e.Plain) :
    ∃ k ≤ es.length, (push (push p ((sent es).take 17)).1 ((sent es).drop 17)).2 =
      (es.drop k).map HostEvent.frame := by
  by_cases hlen : 17 ≤ (sent es).length
  · obtain ⟨j, m, gap, hj, hdrop, hhunt, hgap⟩ := locks p hp es hes hlen
    have hwhole := push_sent (push p ((sent es).take j)).1 gap (es.drop m) hhunt hgap
    have htake : (sent es).take 17 = (sent es).take j++((sent es).drop j).take (17-j) := by
      rw [← List.take_add, Nat.add_sub_cancel' hj]
    have hrest : (sent es).drop 17 = ((sent es).drop j).drop (17-j) := by
      rw [List.drop_drop, Nat.add_sub_cancel' hj]
    rw [← hdrop, ← List.take_append_drop (17-j) ((sent es).drop j), push_append] at hwhole
    rw [htake, hrest, push_append]
    obtain ⟨early, late, hparts, -, hlate⟩ := List.map_eq_append_iff.mp hwhole.symm
    have hsuffix : late <:+ es := List.IsSuffix.trans ⟨early, hparts.symm⟩ (List.drop_suffix m es)
    exact ⟨es.length-late.length, Nat.sub_le _ _, by
      rw [← hlate, ← List.suffix_iff_eq_drop.mp hsuffix]⟩
  · refine ⟨es.length, le_rfl, ?_⟩
    rw [List.drop_eq_nil_of_le (by omega : (sent es).length ≤ 17)]
    simp

/-- Whatever the parser has seen, behind the first 17 bytes it hands on nothing but the
last frames of the stream, among them every frame that begins there. -/
theorem resynchronises (p₀ : Parser) (history : Bytes) (es : List HostEvent)
    (hes : ∀ e ∈ es, e.Plain) :
    (∀ pre post, es = pre++post → 17 ≤ (sent pre).length →
      (push (push (push p₀.reset history).1 (sent pre)).1 (sent post)).2 =
        post.map HostEvent.frame) ∧
    ∃ k, (push (push (push p₀.reset history).1 ((sent es).take 17)).1 ((sent es).drop 17)).2 =
        (es.drop k).map HostEvent.frame ∧
      ∀ pre post, es = pre++post → 17 ≤ (sent pre).length → k ≤ pre.length := by
  have hwf : (push p₀.reset history).1.Wf := push_wf p₀.reset history trivial
  have hfrom : ∀ pre post, es = pre++post → 17 ≤ (sent pre).length →
      (push (push (push p₀.reset history).1 (sent pre)).1 (sent post)).2 =
        post.map HostEvent.frame := fun pre post heq hlen =>
    resynchronises_from _ hwf pre post (fun e he => hes e (by simp [heq, he])) hlen
  obtain ⟨k, hk, hlate⟩ := late_output _ hwf es hes
  refine ⟨hfrom, k, hlate, ?_⟩
  intro pre post heq hlen
  have hend := hfrom pre post heq hlen
  have htake : (sent es).take 17 = (sent pre).take 17 := by
    rw [heq, sent_append, List.take_append_of_le_length hlen]
  have hdrop : (sent es).drop 17 = (sent pre).drop 17++sent post := by
    rw [heq, sent_append, List.drop_append_of_le_length hlen]
  have hstate : (push (push (push p₀.reset history).1 ((sent pre).take 17)).1
      ((sent pre).drop 17)).1 = (push (push p₀.reset history).1 (sent pre)).1 := by
    conv_rhs => rw [← List.take_append_drop 17 (sent pre), push_append]
  rw [htake, hdrop, push_append, hstate, hend] at hlate
  have hcount := congrArg List.length hlate
  have hes : es.length = pre.length+post.length := by rw [heq, List.length_append]
  simp only [List.length_append, List.length_map, List.length_drop] at hcount
  omega

/-- A parser that waits for the payload of a frame whose host went away. -/
theorem resynchronises_inside :
    (∀ e ∈ [HostEvent.forceSave, .nop, .forceSave, .nop, .key 10 true 0], e.Plain) ∧
    ∀ p : Parser, (push (push (push p.reset [0xAA, 0x55, 0x01, 0x10]).1
      (sent [.forceSave, .nop, .forceSave, .nop])).1 (sent [.key 10 true 0])).2 =
        [⟨0x01, [0x8A, 0x00]⟩] := by
  have hes : ∀ e ∈ [HostEvent.forceSave, .nop, .forceSave, .nop, .key 10 true 0], e.Plain := by
    simp [HostEvent.Plain]
  exact ⟨hes, fun p => (resynchronises p [0xAA, 0x55, 0x01, 0x10] _ hes).1
    [.forceSave, .nop, .forceSave, .nop] [.key 10 true 0] rfl (by decide +kernel)⟩

end MokyaLora.KeyInjectSync
