import MokyaLora.Lib.Memory
import MokyaLora.Lib.Ring
import Mathlib.Data.List.Induction

/-!
# Inbox of received text messages

A ring of four slots (`messages_inbox.c`). A publish fills the slot at the write index and
numbers it; a reader asks for a slot by its distance from the newest one. The slots are
never cleared, so behind the used bytes of a text stands what was there before.
-/

set_option autoImplicit false

namespace MokyaLora.MessagesInbox
open Lib.Fields Lib.Memory Lib.Ring

def textMax : UInt16 := 200

def capacity : UInt32 := 4

structure Entry where
  seq : UInt32
  fromNodeId : UInt32
  toNodeId : UInt32
  channelIndex : UInt8
  textLen : UInt16
  text : Buffer

structure Inbox where
  ring : ℕ → Entry
  writeIdx : UInt32
  count : UInt32
  latestSeq : UInt32

def empty : Inbox := ⟨fun _ => ⟨0, 0, 0, 0, 0, zeroed⟩, 0, 0, 0⟩

def cut (textLen : UInt16) : UInt16 := if textLen > textMax then textMax else textLen

/-- The text copied into a slot; a null pointer leaves the slot's text. -/
def copyText (slot : Buffer) (text : Option Bytes) (textLen : UInt16) : Buffer :=
  match text with
  | some t => if textLen > 0 then copyIn slot 0 (t.take textLen.toNat) else slot
  | none => slot

def publish (s : Inbox) (fromNodeId toNodeId : UInt32) (channelIndex : UInt8)
    (text : Option Bytes) (textLen : UInt16) : Inbox :=
  let textLen := cut textLen
  let slot := s.ring s.writeIdx.toNat
  let nextSeq := s.latestSeq+1
  { ring := Function.update s.ring s.writeIdx.toNat
      ⟨nextSeq, fromNodeId, toNodeId, channelIndex, textLen, copyText slot.text text textLen⟩
    writeIdx := (s.writeIdx+1) % capacity
    count := if s.count < capacity then s.count+1 else s.count
    latestSeq := nextSeq }

/-- `messages_inbox_take_at_offset`; `none` is a false return. -/
def takeAtOffset (s : Inbox) (offset : UInt32) : Option Entry :=
  if offset ≥ s.count then none
  else
    let newest := (s.writeIdx+capacity-1) % capacity
    let idx := (newest+capacity-offset) % capacity
    some (s.ring idx.toNat)

/-- The arguments of a publish; the pointer is readable for the length given. -/
structure Packet where
  fromNodeId : UInt32
  toNodeId : UInt32
  channelIndex : UInt8
  text : Option Bytes
  textLen : UInt16
  readable : textLen ≠ 0 → ∃ t, text = some t ∧ textLen.toNat ≤ t.length

structure Message where
  seq : UInt32
  fromNodeId : UInt32
  toNodeId : UInt32
  channelIndex : UInt8
  text : Bytes

def Entry.shown (e : Entry) : Message :=
  ⟨e.seq, e.fromNodeId, e.toNodeId, e.channelIndex, segment e.text 0 e.textLen.toNat⟩

def Packet.body (p : Packet) : Bytes := (p.text.getD []).take p.textLen.toNat

def Packet.message (p : Packet) (seq : UInt32) : Message :=
  ⟨seq, p.fromNodeId, p.toNodeId, p.channelIndex, p.body.take 200⟩

def deliver (s : Inbox) (p : Packet) : Inbox :=
  publish s p.fromNodeId p.toNodeId p.channelIndex p.text p.textLen

def received (ps : List Packet) : Inbox := ps.foldl deliver empty

def numbered : List Packet → List Message
  | [] => []
  | p::ps => p.message (UInt32.ofNat (ps.length+1))::numbered ps

theorem numbered_length (ps : List Packet) : (numbered ps).length = ps.length := by
  induction ps with
  | nil => rfl
  | cons p ps ih => rw [numbered, List.length_cons, ih, List.length_cons]

theorem numbered_get (ps : List Packet) (k : ℕ) :
    (numbered ps)[k]? = ps[k]?.map (fun p => p.message (UInt32.ofNat (ps.length-k))) := by
  induction ps generalizing k with
  | nil => rfl
  | cons p ps ih =>
    cases k with
    | zero => rfl
    | succ k => simpa [numbered] using ih k

def slots (s : Inbox) : Slots Entry := ⟨s.ring, s.writeIdx.toNat, s.count.toNat⟩

theorem cut_toNat (textLen : UInt16) : (cut textLen).toNat = min textLen.toNat 200 := by
  rw [cut]
  split_ifs with h
  · have hlt : 200 < textLen.toNat := UInt16.lt_iff_toNat_lt.mp h
    show 200 = _
    omega
  · have hle : textLen.toNat ≤ 200 := UInt16.le_iff_toNat_le.mp (UInt16.not_lt.mp h)
    omega

theorem copy_text (slot : Buffer) (p : Packet) :
    segment (copyText slot p.text (cut p.textLen)) 0 (cut p.textLen).toNat = p.body.take 200 := by
  rw [cut_toNat, Packet.body, List.take_take]
  by_cases hzero : p.textLen = 0
  · rw [hzero]
    rfl
  · obtain ⟨t, ht, hlen⟩ := p.readable hzero
    have hpos : cut p.textLen > 0 := by
      apply UInt16.lt_iff_toNat_lt.mpr
      have hne : p.textLen.toNat ≠ 0 := fun h => hzero (UInt16.toNat_inj.mp h)
      rw [cut_toNat, UInt16.toNat_zero]
      omega
    rw [ht, copyText, if_pos hpos, cut_toNat, Option.getD_some, Nat.min_comm 200]
    exact segment_copyIn_take slot t _ (by omega)

def fill (p : Packet) (seq : UInt32) (slot : Entry) : Entry :=
  ⟨seq, p.fromNodeId, p.toNodeId, p.channelIndex, cut p.textLen,
    copyText slot.text p.text (cut p.textLen)⟩

theorem fill_shown (p : Packet) (seq : UInt32) (slot : Entry) :
    (fill p seq slot).shown = p.message seq := by
  rw [Entry.shown, fill, copy_text, Packet.message]

theorem slots_deliver (s : Inbox) (p : Packet) :
    slots (deliver s p) = put 4 (fill p (s.latestSeq+1)) (slots s) := by
  rw [slots, put, Slots.mk.injEq]
  refine ⟨rfl, ?_, ?_⟩
  · show ((s.writeIdx+1) % capacity).toNat = (s.writeIdx.toNat+1) % 4
    rw [UInt32.toNat_mod, UInt32.toNat_add]
    show (s.writeIdx.toNat+1) % 4294967296 % 4 = _
    omega
  · show (if s.count < capacity then s.count+1 else s.count).toNat =
      if s.count.toNat < 4 then s.count.toNat+1 else s.count.toNat
    have hlt : s.count < capacity ↔ s.count.toNat < 4 := UInt32.lt_iff_toNat_lt
    by_cases h : s.count.toNat < 4
    · rw [if_pos (hlt.mpr h), if_pos h, UInt32.toNat_add]
      show (s.count.toNat+1) % 4294967296 = _
      omega
    · rw [if_neg (mt hlt.mp h), if_neg h]

/-- Taking from the inbox is reading the ring. -/
theorem take_slots (s : Inbox) (h : s.count.toNat ≤ 4) (offset : UInt32) :
    takeAtOffset s offset = back 4 (slots s) offset.toNat := by
  rw [takeAtOffset, back]
  show _ = if s.count.toNat ≤ offset.toNat then none else _
  by_cases ho : s.count.toNat ≤ offset.toNat
  · rw [if_pos (UInt32.le_iff_toNat_le.mpr ho), if_pos ho]
  · rw [if_neg (mt UInt32.le_iff_toNat_le.mp ho), if_neg ho]
    have hidx : (((s.writeIdx+capacity-1) % capacity+capacity-offset) % capacity).toNat =
        ((s.writeIdx.toNat+4-1) % 4+4-offset.toNat) % 4 := by
      have hcap : capacity.toNat = 4 := rfl
      have hone : (1 : UInt32).toNat = 1 := rfl
      simp only [UInt32.toNat_mod, UInt32.toNat_add, UInt32.toNat_sub, hcap, hone]
      omega
    simp only [hidx]
    rfl

theorem received_holds (ps : List Packet) :
    Holds 4 Entry.shown (numbered ps.reverse) (slots (received ps)) ∧
      (received ps).latestSeq = UInt32.ofNat ps.length := by
  induction ps using List.reverseRecOn with
  | nil => exact ⟨holds_empty 4 _ _, rfl⟩
  | append_singleton ps p ih =>
    obtain ⟨hholds, hseq⟩ := ih
    have hlatest : (received ps).latestSeq+1 = UInt32.ofNat (ps.length+1) := by
      rw [hseq, UInt32.ofNat_add]
      rfl
    have hlast : received (ps++[p]) = deliver (received ps) p := List.foldl_concat ..
    rw [hlast, List.reverse_concat, numbered, List.length_reverse, ← hlatest, slots_deliver,
      List.length_append]
    exact ⟨holds_put hholds _ _ (fill_shown p _), hlatest⟩

/-- The inbox is the list of the four newest messages: the entry at an offset is the message
published that many publishes before the newest, under a number that much smaller, and there
is none at the offsets from the count on. -/
theorem inbox_shows_newest (ps : List Packet) :
    (received ps).count.toNat = min ps.length 4 ∧
    ∀ offset : UInt32, (takeAtOffset (received ps) offset).map Entry.shown =
      (ps.reverse.take 4)[offset.toNat]?.map
        (fun p => p.message ((received ps).latestSeq-offset)) := by
  obtain ⟨hholds, hseq⟩ := received_holds ps
  have hcount : (received ps).count.toNat = min ps.length 4 := by
    have := hholds.count
    rwa [numbered_length, List.length_reverse] at this
  refine ⟨hcount, fun offset => ?_⟩
  rw [take_slots _ (by omega), holds_back hholds]
  by_cases ho : offset.toNat < min ps.length 4
  · have hlt : offset.toNat < ps.reverse.length := by
      rw [List.length_reverse]
      omega
    have hnum : UInt32.ofNat (ps.length-offset.toNat) = (received ps).latestSeq-offset := by
      rw [hseq, UInt32.ofNat_sub (by omega), UInt32.ofNat_toNat]
    rw [List.getElem?_take_of_lt (by omega), List.getElem?_take_of_lt (by omega), numbered_get,
      List.length_reverse, hnum]
  · rw [List.getElem?_eq_none (by simp [numbered_length]; omega),
      List.getElem?_eq_none (by simp; omega), Option.map_none]

end MokyaLora.MessagesInbox
