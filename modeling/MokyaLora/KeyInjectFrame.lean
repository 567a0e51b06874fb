import MokyaLora.Lib.Checksum
import MokyaLora.Lib.Memory
import MokyaLora.Lib.Transducer
import Mathlib.Logic.Function.Iterate

/-!
# Frames of injected keys

The wire frames that inject keys (`key_inject_frame.c`). The parser takes one byte at a
time; the type, the length and the payload are behind a CRC-8, and a payload is at most
16 bytes.
-/

set_option autoImplicit false

namespace MokyaLora.KeyInjectFrame
open Lib.Checksum Lib.Fields Lib.Memory Lib.Transducer

def magic0 : UInt8 := 0xAA

def magic1 : UInt8 := 0x55

def maxPayload : ℕ := 16

@[simp] theorem magic0_ne_magic1 : magic0 ≠ magic1 := by decide

def crcBit (crc : UInt8) : UInt8 :=
  if crc &&& 0x80 ≠ 0 then (crc <<< 1) ^^^ 0x07 else crc <<< 1

def crcByte (crc b : UInt8) : UInt8 := crcBit^[8] (crc ^^^ b)

def crc8 (data : Bytes) : UInt8 := data.foldl crcByte 0

structure Buffered where
  type : UInt8
  len : UInt8
  payload : Bytes
  crc : UInt8
  deriving DecidableEq, Repr

def Buffered.check (f : Buffered) : Bool := crc8 (f.type::f.len::f.payload) = f.crc

/-- The bit step backwards: only a step that took the polynomial leaves an odd number. -/
def crcBitBack (crc : UInt8) : UInt8 :=
  if crc &&& 1 ≠ 0 then ((crc ^^^ 0x07) >>> 1) ||| 0x80 else crc >>> 1

theorem crc_bit_back : ∀ crc : UInt8, crcBitBack (crcBit crc) = crc :=
  byte_forall (by decide +kernel)

theorem crc_bit_injective : Function.Injective crcBit :=
  Function.LeftInverse.injective crc_bit_back

theorem crc_byte_state (b : UInt8) : Function.Injective (fun crc => crcByte crc b) := by
  intro s t h
  have hx := crc_bit_injective.iterate 8 h
  simpa using hx

theorem crc_byte_letter (crc : UInt8) : Function.Injective (crcByte crc) := by
  intro s t h
  have hx := crc_bit_injective.iterate 8 h
  simpa using hx

theorem crc8_set_ne (data : Bytes) (i : ℕ) (b : UInt8) (hi : i < data.length)
    (hb : b ≠ data[i]) : crc8 (data.set i b) ≠ crc8 data :=
  foldl_set_ne crc_byte_state crc_byte_letter data i b hi hb 0

/-- One byte of the frame is another one; the number of buffered bytes stays. -/
inductive Buffered.OneByteOff (f : Buffered) : Buffered → Prop
  | type (b : UInt8) (h : b ≠ f.type) : f.OneByteOff { f with type := b }
  | len (b : UInt8) (h : b ≠ f.len) : f.OneByteOff { f with len := b }
  | payload (i : ℕ) (hi : i < f.payload.length) (b : UInt8) (h : b ≠ f.payload[i]) :
      f.OneByteOff { f with payload := f.payload.set i b }
  | crc (b : UInt8) (h : b ≠ f.crc) : f.OneByteOff { f with crc := b }

/-- A frame that passes its check fails it with any one byte replaced. -/
theorem one_byte_off_fails (f g : Buffered) (h : f.OneByteOff g) (hf : f.check = true) :
    g.check = false := by
  simp only [Buffered.check, decide_eq_true_eq, decide_eq_false_iff_not] at hf ⊢
  rw [← Ne]
  cases h with
  | type b hb => exact hf ▸ crc8_set_ne (f.type::f.len::f.payload) 0 b (by simp) hb
  | len b hb => exact hf ▸ crc8_set_ne (f.type::f.len::f.payload) 1 b (by simp) hb
  | payload i hi b hb =>
    have hset := crc8_set_ne (f.type::f.len::f.payload) (i+2) b (by simpa using hi) hb
    exact hf ▸ hset
  | crc b hb =>
    rw [hf]
    exact hb.symm

theorem one_byte_off_fails_key :
    (⟨0x01, 2, [0x8A, 0x00], 0xF4⟩ : Buffered).check = true ∧
      (⟨0x01, 2, [0x8A, 0x01], 0xF4⟩ : Buffered).check = false := by
  have hf : (⟨0x01, 2, [0x8A, 0x00], 0xF4⟩ : Buffered).check = true := by decide +kernel
  exact ⟨hf, one_byte_off_fails _ _ (.payload 1 (by simp) 0x01 (by simp)) hf⟩

inductive State where
  | magic0
  | magic1
  | type
  | len
  | payload
  | crc
  deriving DecidableEq, Repr

structure Parser where
  state : State
  type : UInt8
  len : UInt8
  idx : UInt8
  payload : Buffer

structure Frame where
  type : UInt8
  payload : Bytes
  deriving DecidableEq, Repr

/-- The payload bytes are left as they are. -/
def Parser.reset (p : Parser) : Parser :=
  { p with state := .magic0, type := 0, len := 0, idx := 0 }

def Parser.buffered (p : Parser) (b : UInt8) : Buffered :=
  ⟨p.type, p.len, bytes p.payload p.len.toNat, b⟩

def pushByte (p : Parser) (b : UInt8) : Parser × List Frame :=
  match p.state with
  | .magic0 => if b = magic0 then ({ p with state := .magic1 }, []) else (p, [])
  | .magic1 =>
    if b = magic1 then ({ p with state := .type }, [])
    else if b = magic0 then ({ p with state := .magic1 }, [])
    else ({ p with state := .magic0 }, [])
  | .type => ({ p with type := b, state := .len }, [])
  | .len =>
    if maxPayload < b.toNat then ({ p with len := b, state := .magic0 }, [])
    else ({ p with len := b, idx := 0, state := if b = 0 then .crc else .payload }, [])
  | .payload =>
    let q := { p with payload := store p.payload p.idx.toNat b, idx := p.idx+1 }
    if q.len ≤ q.idx then ({ q with state := .crc }, []) else (q, [])
  | .crc =>
    ({ p with state := .magic0 },
      if (p.buffered b).check then [⟨p.type, bytes p.payload p.len.toNat⟩] else [])

def push : Parser → Bytes → Parser × List Frame := run pushByte

def pushChunks : Parser → List Bytes → Parser × List Frame := runChunks pushByte

def Parser.Wf (p : Parser) : Prop :=
  match p.state with
  | .payload => p.idx.toNat < p.len.toNat ∧ p.len.toNat ≤ maxPayload
  | .crc => p.len.toNat ≤ maxPayload
  | _ => True

theorem push_byte_wf (p : Parser) (b : UInt8) (h : p.Wf) : (pushByte p b).1.Wf := by
  cases hs : p.state with
  | magic0 => by_cases hb : b = magic0 <;> simp [pushByte, hs, hb, Parser.Wf]
  | magic1 =>
    by_cases hb : b = magic1
    · simp [pushByte, hs, hb, Parser.Wf]
    · by_cases hm : b = magic0 <;> simp_all [pushByte, Parser.Wf]
  | type => simp [pushByte, hs, Parser.Wf]
  | len =>
    by_cases hb : maxPayload < b.toNat
    · simp [pushByte, hs, hb, Parser.Wf]
    · by_cases h0 : b = 0
      · simp [pushByte, hs, h0, maxPayload, Parser.Wf]
      · have hpos : b.toNat ≠ 0 := fun h => h0 (UInt8.toNat_inj.mp h)
        simp only [pushByte, hs, hb, h0, if_false, Parser.Wf]
        simp
        omega
  | payload =>
    simp only [Parser.Wf, hs] at h
    by_cases hl : p.len ≤ p.idx+1
    · simpa [pushByte, hs, hl, Parser.Wf] using h.2
    · have hlt : p.idx+1 < p.len := by simpa using hl
      simpa [pushByte, hs, hl, Parser.Wf] using ⟨hlt, h.2⟩
  | crc => simp [pushByte, hs, Parser.Wf]

def Frame.encode (f : Frame) : Bytes :=
  magic0::magic1::f.type::UInt8.ofNat f.payload.length::(f.payload++
    [crc8 (f.type::UInt8.ofNat f.payload.length::f.payload)])

def Frame.Fits (f : Frame) : Prop := f.payload.length ≤ maxPayload

instance (f : Frame) : Decidable f.Fits :=
  inferInstanceAs (Decidable (f.payload.length ≤ maxPayload))

def wire (parts : List (Bytes × Frame)) : Bytes := parts.flatMap (fun x => x.1++x.2.encode)

/-- What the parser has taken of the frame it is in. -/
def Parser.pending (p : Parser) : Bytes :=
  match p.state with
  | .magic0 => []
  | .magic1 => [magic0]
  | .type => [magic0, magic1]
  | .len => [magic0, magic1, p.type]
  | .payload => magic0::magic1::p.type::p.len::bytes p.payload p.idx.toNat
  | .crc => magic0::magic1::p.type::p.len::bytes p.payload p.len.toNat

@[simp] theorem push_nil (p : Parser) : push p [] = (p, []) := rfl

theorem push_cons (p : Parser) (b : UInt8) (bs : Bytes) :
    push p (b::bs) =
      ((push (pushByte p b).1 bs).1, (pushByte p b).2++(push (pushByte p b).1 bs).2) := rfl

theorem push_append (p : Parser) (as bs : Bytes) :
    push p (as++bs) = ((push (push p as).1 bs).1, (push p as).2++(push (push p as).1 bs).2) :=
  run_append pushByte p as bs

theorem push_wf (p : Parser) (s : Bytes) (h : p.Wf) : (push p s).1.Wf :=
  run_invariant pushByte Parser.Wf push_byte_wf p s h

theorem idx_next (p : Parser) (h : p.idx.toNat < p.len.toNat) :
    (p.idx+1).toNat = p.idx.toNat+1 := by
  have := p.len.toNat_lt
  simp
  omega

theorem payload_pending (p : Parser) (b : UInt8) (hs : p.state = .payload)
    (h : p.idx.toNat < p.len.toNat) :
    (pushByte p b).2 = [] ∧ (pushByte p b).1.pending = p.pending++[b] := by
  have hidx := idx_next p h
  have hbytes := bytes_push p.payload p.idx.toNat b
  by_cases hl : p.len ≤ p.idx+1
  · have hend : p.len.toNat = p.idx.toNat+1 := by
      have := UInt8.le_iff_toNat_le.mp hl
      omega
    simp [pushByte, hs, hl, Parser.pending, hbytes, hend]
  · simp only [pushByte, hs, hl, if_false, Parser.pending, hidx]
    simp [hbytes]

theorem crc_pending (p : Parser) (b : UInt8) (hs : p.state = .crc) (h : p.len.toNat ≤ maxPayload)
    (hc : (p.buffered b).check = true) :
    ∃ f : Frame, f.Fits ∧ (pushByte p b).2 = [f] ∧ p.pending++[b] = f.encode := by
  have hcrc : crc8 (p.type::p.len::bytes p.payload p.len.toNat) = b := of_decide_eq_true hc
  refine ⟨⟨p.type, bytes p.payload p.len.toNat⟩, ?_, ?_, ?_⟩
  · simpa [Frame.Fits] using h
  · simp [pushByte, hs, hc]
  · simp [Parser.pending, hs, Frame.encode, hcrc]

/-- A byte goes on with the frame, or the parser lets go of the front of what it had, or
the byte ends a frame. -/
theorem push_byte_pending (p : Parser) (b : UInt8) (h : p.Wf) :
    ((pushByte p b).2 = [] ∧ ∃ gap, p.pending++[b] = gap++(pushByte p b).1.pending) ∨
      ∃ f : Frame, f.Fits ∧ (pushByte p b).2 = [f] ∧ (pushByte p b).1.pending = [] ∧
        p.pending++[b] = f.encode := by
  cases hs : p.state with
  | magic0 =>
    by_cases hb : b = magic0
    · exact .inl ⟨by simp [pushByte, hs, hb], [], by simp [pushByte, hs, hb, Parser.pending]⟩
    · exact .inl ⟨by simp [pushByte, hs, hb], [b], by simp [pushByte, hs, hb, Parser.pending]⟩
  | magic1 =>
    by_cases hb : b = magic1
    · exact .inl ⟨by simp [pushByte, hs, hb], [], by simp [pushByte, hs, hb, Parser.pending]⟩
    · by_cases hm : b = magic0
      · exact .inl ⟨by simp [pushByte, hs, hm], [magic0],
          by simp [pushByte, hs, hm, Parser.pending]⟩
      · exact .inl ⟨by simp [pushByte, hs, hb, hm], [magic0, b],
          by simp [pushByte, hs, hb, hm, Parser.pending]⟩
  | type => exact .inl ⟨by simp [pushByte, hs], [], by simp [pushByte, hs, Parser.pending]⟩
  | len =>
    by_cases hb : maxPayload < b.toNat
    · exact .inl ⟨by simp [pushByte, hs, hb], [magic0, magic1, p.type, b],
        by simp [pushByte, hs, hb, Parser.pending]⟩
    · by_cases h0 : b = 0
      · exact .inl ⟨by simp [pushByte, hs, h0, maxPayload], [],
          by simp [pushByte, hs, h0, maxPayload, Parser.pending]⟩
      · exact .inl ⟨by simp [pushByte, hs, hb], [],
          by simp [pushByte, hs, hb, h0, Parser.pending]⟩
  | payload =>
    simp only [Parser.Wf, hs] at h
    obtain ⟨hout, hp⟩ := payload_pending p b hs h.1
    exact .inl ⟨hout, [], hp.symm⟩
  | crc =>
    have hnil : (pushByte p b).1.pending = [] := by simp [pushByte, hs, Parser.pending]
    by_cases hc : (p.buffered b).check
    · simp only [Parser.Wf, hs] at h
      obtain ⟨f, hfits, hout, hencode⟩ := crc_pending p b hs h hc
      exact .inr ⟨f, hfits, hout, hnil, hencode⟩
    · exact .inl ⟨by simp [pushByte, hs, hc], p.pending++[b], by simp [hnil]⟩

/-- The stream is made of the frames that were handed on, with bytes between them, and of
the frame the parser is in. -/
def History (stream : Bytes) (out : List Frame) (p : Parser) : Prop :=
  p.Wf ∧ ∃ parts gap, stream = wire parts++(gap++p.pending) ∧ out = parts.map Prod.snd ∧
    ∀ x ∈ parts, x.2.Fits

theorem push_byte_history (stream : Bytes) (out : List Frame) (p : Parser) (b : UInt8)
    (h : History stream out p) :
    History (stream++[b]) (out++(pushByte p b).2) (pushByte p b).1 := by
  obtain ⟨hwf, parts, gap, rfl, rfl, hfits⟩ := h
  refine ⟨push_byte_wf p b hwf, ?_⟩
  rcases push_byte_pending p b hwf with ⟨hout, front, hp⟩ | ⟨f, hf, hout, hnil, hp⟩
  · refine ⟨parts, gap++front, ?_, by simp [hout], hfits⟩
    simp only [List.append_assoc, ← hp]
  · refine ⟨parts++[(gap, f)], [], ?_, by simp [hout], ?_⟩
    · simp [wire, hnil, ← hp]
    · intro x hx
      rcases List.mem_append.mp hx with hx | hx
      · exact hfits x hx
      · rw [List.mem_singleton.mp hx]
        exact hf

def NoPair (s : Bytes) : Prop := ¬ [magic0, magic1] <:+: s

def Hunting (p : Parser) : Prop := p.state = .magic0 ∨ p.state = .magic1

theorem NoPair.suffix {s t : Bytes} (h : NoPair t) (hs : s <:+ t) : NoPair s :=
  fun hp => h (hp.trans hs.isInfix)

theorem push_garbage (p : Parser) (g : Bytes) (hp : Hunting p) (hg : NoPair (p.pending++g)) :
    Hunting (push p g).1 ∧ (push p g).2 = [] := by
  induction g generalizing p with
  | nil => exact ⟨hp, rfl⟩
  | cons b g ih =>
    have hstep : Hunting (pushByte p b).1 ∧ (pushByte p b).2 = [] ∧
        (pushByte p b).1.pending++g <:+ p.pending++b::g := by
      rcases hp with hs | hs
      · by_cases hb : b = magic0
        · simp [pushByte, hs, hb, Hunting, Parser.pending]
        · simp [pushByte, hs, hb, Hunting, Parser.pending]
      · have hb : b ≠ magic1 := by
          intro hb
          exact hg ⟨[], g, by simp [Parser.pending, hs, hb]⟩
        by_cases hm : b = magic0
        · simp [pushByte, hs, hm, Hunting, Parser.pending]
        · simp [pushByte, hs, hb, hm, Hunting, Parser.pending]
          exact (List.suffix_cons b g).trans (List.suffix_cons magic0 (b::g))
    have hrest := ih (pushByte p b).1 hstep.1 (hg.suffix hstep.2.2)
    rw [push_cons, hstep.2.1]
    exact hrest

theorem push_payload (p : Parser) (l : Bytes) (hs : p.state = .payload) (hl : l ≠ [])
    (hlen : p.idx.toNat+l.length = p.len.toNat) :
    (push p l).1.state = .crc ∧ (push p l).1.type = p.type ∧ (push p l).1.len = p.len ∧
      bytes (push p l).1.payload p.len.toNat = bytes p.payload p.idx.toNat++l ∧
      (push p l).2 = [] := by
  induction l generalizing p with
  | nil => exact absurd rfl hl
  | cons b l ih =>
    have hidx := idx_next p (by simp at hlen; omega)
    have hbytes := bytes_push p.payload p.idx.toNat b
    rw [push_cons]
    cases l with
    | nil =>
      have hend : p.len = p.idx+1 := by
        apply UInt8.toNat_inj.mp
        rw [hidx, ← hlen, List.length_singleton]
      have hle : p.len ≤ p.idx+1 := by simp [hend]
      have hnat : p.len.toNat = p.idx.toNat+1 := by rw [hend, hidx]
      simp [pushByte, hs, hle, hnat, hbytes]
    | cons c l =>
      have hlt : ¬ p.len ≤ p.idx+1 := by
        rw [UInt8.le_iff_toNat_le, hidx, ← hlen, List.length_cons, List.length_cons]
        omega
      have hrest := ih (pushByte p b).1 (by simp [pushByte, hs, hlt]) (by simp)
        (by
          simp only [pushByte, hs, hlt, if_false, hidx]
          simp only [List.length_cons] at hlen ⊢
          omega)
      simp only [pushByte, hs, hlt, if_false, hidx, hbytes] at hrest ⊢
      simpa using hrest

theorem push_header (p : Parser) (hp : Hunting p) (type len : UInt8)
    (hlen : len.toNat ≤ maxPayload) :
    push p [magic0, magic1, type, len] =
      ({ p with state := if len = 0 then .crc else .payload, type := type, len := len,
                idx := 0 }, []) := by
  have hle : ¬ maxPayload < len.toNat := by omega
  rcases hp with hs | hs <;> simp [push, pushByte, hs, hle]

theorem push_crc (p : Parser) (b : UInt8) (hs : p.state = .crc)
    (hc : crc8 (p.type::p.len::bytes p.payload p.len.toNat) = b) :
    push p [b] = ({ p with state := .magic0 }, [⟨p.type, bytes p.payload p.len.toNat⟩]) := by
  have hcheck : (p.buffered b).check = true := decide_eq_true hc
  simp [push, pushByte, hs, hcheck]

theorem push_encode (p : Parser) (f : Frame) (hp : Hunting p) (hf : f.Fits) :
    (push p f.encode).1.state = .magic0 ∧ (push p f.encode).2 = [f] := by
  have hlen : (UInt8.ofNat f.payload.length).toNat = f.payload.length := by
    simp only [Frame.Fits, maxPayload] at hf
    simp
    omega
  have hhead := push_header p hp f.type (UInt8.ofNat f.payload.length)
    (by rw [hlen]; exact hf)
  have hsplit : f.encode = [magic0, magic1, f.type, UInt8.ofNat f.payload.length]++
      (f.payload++[crc8 (f.type::UInt8.ofNat f.payload.length::f.payload)]) := rfl
  rw [hsplit, push_append, hhead]
  obtain ⟨type, payload⟩ := f
  cases payload with
  | nil =>
    rw [List.nil_append, push_crc]
    · simp
    · rfl
    · simp
  | cons b l =>
    have hne : UInt8.ofNat (b::l).length ≠ 0 := by
      intro h
      rw [h] at hlen
      simp at hlen
    rw [if_neg hne, push_append]
    obtain ⟨hs, ht, hl, hb, ho⟩ := push_payload
      { p with state := .payload, type := type, len := UInt8.ofNat (b::l).length, idx := 0 }
      (b::l) rfl (by simp) (by rw [hlen]; simp)
    simp only [UInt8.toNat_zero, bytes_zero, List.nil_append] at hb
    rw [push_crc _ _ hs (by rw [ht, hl, hb]), ho]
    simp only [ht, hl, hb]
    simp

/-- One frame behind garbage. -/
theorem push_frame (p : Parser) (g : Bytes) (f : Frame) (hp : Hunting p)
    (hg : NoPair (p.pending++g)) (hf : f.Fits) :
    (push p (g++f.encode)).1.state = .magic0 ∧ (push p (g++f.encode)).2 = [f] := by
  obtain ⟨hhunt, hout⟩ := push_garbage p g hp hg
  obtain ⟨hstate, hframe⟩ := push_encode (push p g).1 f hhunt hf
  rw [push_append]
  exact ⟨hstate, by rw [hout, hframe, List.nil_append]⟩

theorem wire_cons (x : Bytes × Frame) (parts : List (Bytes × Frame)) :
    wire (x::parts) = x.1++x.2.encode++wire parts := rfl

theorem push_wire (p : Parser) (parts : List (Bytes × Frame)) (hp : p.state = .magic0)
    (h : ∀ x ∈ parts, NoPair x.1 ∧ x.2.Fits) :
    (push p (wire parts)).1.state = .magic0 ∧
      (push p (wire parts)).2 = parts.map Prod.snd := by
  induction parts generalizing p with
  | nil => exact ⟨hp, rfl⟩
  | cons x parts ih =>
    obtain ⟨hg, hf⟩ := h x (by simp)
    obtain ⟨hstate, hframe⟩ := push_frame p x.1 x.2 (.inl hp)
      (by simpa [Parser.pending, hp] using hg) hf
    obtain ⟨hend, hrest⟩ := ih (push p (x.1++x.2.encode)).1 hstate
      (fun y hy => h y (by simp [hy]))
    rw [wire_cons, push_append]
    exact ⟨hend, by rw [hframe, hrest]; rfl⟩

/-- Whatever stands between the frames, each of them is handed on once and in order; and
in every stream the frames handed on stand next to each other or with bytes between. -/
theorem frames_delivered (p : Parser) (chunks : List Bytes) :
    (∀ parts tail, chunks.flatten = wire parts++tail →
      (∀ x ∈ parts, NoPair x.1 ∧ x.2.Fits) → NoPair tail →
      (pushChunks p.reset chunks).2 = parts.map Prod.snd) ∧
    ∃ parts tail, chunks.flatten = wire parts++tail ∧
      (pushChunks p.reset chunks).2 = parts.map Prod.snd ∧ ∀ x ∈ parts, x.2.Fits := by
  have hchunks : pushChunks p.reset chunks = push p.reset chunks.flatten :=
    run_chunks pushByte p.reset chunks
  rw [hchunks]
  constructor
  · intro parts tail hstream hparts htail
    obtain ⟨hstate, hout⟩ := push_wire p.reset parts rfl hparts
    have hend := push_garbage (push p.reset (wire parts)).1 tail (.inl hstate)
      (by simpa [Parser.pending, hstate] using htail)
    rw [hstream, push_append, hout, hend.2, List.append_nil]
  · have hinit : History [] [] p.reset :=
      ⟨trivial, [], [], by simp [wire, Parser.pending, Parser.reset]⟩
    obtain ⟨hwf, parts, gap, hstream, hout, hfits⟩ :=
      run_history pushByte History push_byte_history [] [] p.reset hinit chunks.flatten
    exact ⟨parts, gap++(push p.reset chunks.flatten).1.pending, hstream, hout, hfits⟩

/-- Noise that ends in the first byte of the frame, and a frame cut in two. -/
theorem frames_delivered_split :
    (pushChunks (Parser.reset ⟨.crc, 0, 0, 0, zeroed⟩)
      [[0x55, 0xAA], [0xAA, 0x55, 0x02], [0x00, 0x2A]]).2 = [⟨0x02, []⟩] :=
  (frames_delivered ⟨.crc, 0, 0, 0, zeroed⟩ _).1 [([0x55, 0xAA], ⟨0x02, []⟩)] [] (by decide +kernel)
    (by simp [NoPair, List.infix_cons_iff, Frame.Fits, magic0, magic1]) (by simp [NoPair])

end MokyaLora.KeyInjectFrame
