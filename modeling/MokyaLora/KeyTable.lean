import MokyaLora.Lib.Fields

/-!
# Keycodes, the table of the input keys, and syllable positions

The twenty input keys carry phonemes, digits and letters; the key of slot `i` is
encoded in dictionaries and in the key sequence as the byte `i + 0x21`. The arrays
of the table are their entries in front of the first null.
-/

set_option autoImplicit false

namespace MokyaLora.Ime
open Lib.Fields

abbrev Keycode := UInt8

def mokyaKeyNone : Keycode := 0x00
def mokyaKeyBack : Keycode := 0x12
def mokyaKeyDel : Keycode := 0x18
def mokyaKeyMode : Keycode := 0x19
def mokyaKeyTab : Keycode := 0x1A
def mokyaKeySpace : Keycode := 0x1B
def mokyaKeySym1 : Keycode := 0x1C
def mokyaKeySym2 : Keycode := 0x1D
def mokyaKeyUp : Keycode := 0x1F
def mokyaKeyDown : Keycode := 0x20
def mokyaKeyLeft : Keycode := 0x21
def mokyaKeyRight : Keycode := 0x22
def mokyaKeyOk : Keycode := 0x23
def mokyaKeyLimit : Keycode := 0x40

def keyFlagLongPress : UInt8 := 0x01

inductive InputMode where
  | smartZh
  | smartEn
  | direct
  deriving DecidableEq, Repr

def utf8 (c : Char) : Bytes := String.utf8EncodeChar c

def text (cs : List Char) : Bytes := cs.flatMap utf8

structure KeyEntry where
  keycode : Keycode
  phonemes : List Char
  digitSlots : List Char
  letterSlots : List Char

def kKeyTable : List KeyEntry :=
  [⟨0x01, ['ㄅ', 'ㄉ'], ['1', '2'], []⟩,
    ⟨0x02, ['ˇ', 'ˋ'], ['3', '4'], []⟩,
    ⟨0x03, ['ㄓ', 'ˊ'], ['5', '6'], []⟩,
    ⟨0x04, ['˙', 'ㄚ'], ['7', '8'], []⟩,
    ⟨0x05, ['ㄞ', 'ㄢ', 'ㄦ'], ['9', '0'], []⟩,
    ⟨0x07, ['ㄆ', 'ㄊ'], [], ['q', 'w', 'Q', 'W']⟩,
    ⟨0x08, ['ㄍ', 'ㄐ'], [], ['e', 'r', 'E', 'R']⟩,
    ⟨0x09, ['ㄔ', 'ㄗ'], [], ['t', 'y', 'T', 'Y']⟩,
    ⟨0x0A, ['ㄧ', 'ㄛ'], [], ['u', 'i', 'U', 'I']⟩,
    ⟨0x0B, ['ㄟ', 'ㄣ'], [], ['o', 'p', 'O', 'P']⟩,
    ⟨0x0D, ['ㄇ', 'ㄋ'], [], ['a', 's', 'A', 'S']⟩,
    ⟨0x0E, ['ㄎ', 'ㄑ'], [], ['d', 'f', 'D', 'F']⟩,
    ⟨0x0F, ['ㄕ', 'ㄘ'], [], ['g', 'h', 'G', 'H']⟩,
    ⟨0x10, ['ㄨ', 'ㄜ'], [], ['j', 'k', 'J', 'K']⟩,
    ⟨0x11, ['ㄠ', 'ㄤ'], [], ['l', 'L']⟩,
    ⟨0x13, ['ㄈ', 'ㄌ'], [], ['z', 'x', 'Z', 'X']⟩,
    ⟨0x14, ['ㄏ', 'ㄒ'], [], ['c', 'v', 'C', 'V']⟩,
    ⟨0x15, ['ㄖ', 'ㄙ'], [], ['b', 'n', 'B', 'N']⟩,
    ⟨0x16, ['ㄩ', 'ㄝ'], [], ['m', 'M']⟩,
    ⟨0x17, ['ㄡ', 'ㄥ'], [], []⟩]

def keycodeToInputSlot (kc : Keycode) : Option ℕ :=
  kKeyTable.findIdx? (fun e => e.keycode == kc)

def findKeyEntry (kc : Keycode) : Option KeyEntry :=
  (keycodeToInputSlot kc).bind (fun slot => kKeyTable[slot]?)

def byteSlot (b : UInt8) : Option ℕ :=
  if 0x21 ≤ b ∧ b < 0x35 then some (b.toNat-0x21) else none

def slotByte (slot : ℕ) : UInt8 := UInt8.ofNat (slot+0x21)

def phonemeCount (b : UInt8) : ℕ :=
  match (byteSlot b).bind (fun slot => kKeyTable[slot]?) with
  | some e => e.phonemes.length
  | none => 0

inductive KeyRole where
  | none
  | initial
  | medial
  | final
  | tone
  deriving DecidableEq

def kSlotRoles : List KeyRole :=
  [.initial, .tone, .initial, .final, .final, .initial, .initial, .initial, .medial, .final,
    .initial, .initial, .initial, .medial, .final, .initial, .initial, .initial, .medial, .final]

def classifyByte (b : UInt8) : KeyRole :=
  if b = 0x20 then .tone
  else match byteSlot b with
    | some slot => kSlotRoles.getD slot .none
    | none => .none

inductive SyllState where
  | kNone
  | kAfterI
  | kAfterM
  | kAfterF
  deriving DecidableEq

/-- The key of ㄓ and ˊ is a tone once the syllable has a vowel. -/
def resolveRole (b : UInt8) (st : SyllState) : KeyRole :=
  if b = 0x23 ∧ (st = .kAfterM ∨ st = .kAfterF) then .tone else classifyByte b

/-- The next state, and whether the key starts a new syllable. -/
def advanceState (role : KeyRole) (st : SyllState) : SyllState × Bool :=
  match role, st with
  | .initial, _ => (.kAfterI, true)
  | .medial, .kAfterI => (.kAfterM, false)
  | .medial, .kAfterM => (.kAfterF, false)
  | .medial, _ => (.kAfterM, true)
  | .final, .kAfterI => (.kAfterF, false)
  | .final, .kAfterM => (.kAfterF, false)
  | .final, _ => (.kAfterF, true)
  | .tone, _ => (.kNone, false)
  | .none, st => (st, false)

def countFrom : SyllState → Bytes → ℕ
  | _, [] => 0
  | st, b::bs =>
    let (st', startsNew) := advanceState (resolveRole b st) st
    (if startsNew then 1 else 0)+countFrom st' bs

def countPositions (seq : Bytes) : ℕ := countFrom .kNone seq

/-- Characters of a string: the bytes that continue none. -/
def utf8CharCount (s : Bytes) : ℕ := s.countP (fun b => b &&& 0xC0 != 0x80)

theorem utf8_length (c : Char) : (utf8 c).length ≤ 4 := by
  rw [utf8, String.length_utf8EncodeChar]
  exact Char.utf8Size_le_four c

theorem text_injective {a b : List Char} (h : text a = text b) : a = b := by
  apply String.ofList_injective
  apply String.toByteArray_inj.mp
  simp only [String.toByteArray_ofList, List.utf8Encode]
  exact congrArg _ h

theorem utf8_ne_zero (c : Char) (h : 0x80 ≤ c.toNat) : ∀ b ∈ utf8 c, b ≠ 0 := by
  have hbyte : ∀ n : ℕ, 0 < n → n < 256 → UInt8.ofNat n ≠ 0 := by
    intro n hpos hlt heq
    have := congrArg UInt8.toNat heq
    rw [UInt8.toNat_ofNat', Nat.mod_eq_of_lt hlt] at this
    exact Nat.ne_of_gt hpos this
  have hv : c.val.toNat = c.toNat := rfl
  unfold utf8 String.utf8EncodeChar
  rw [hv]
  dsimp only
  intro b hb
  split at hb
  · omega
  · split at hb
    · simp only [List.mem_cons, List.not_mem_nil, or_false] at hb
      rcases hb with rfl | rfl <;> apply hbyte <;> omega
    · split at hb
      · simp only [List.mem_cons, List.not_mem_nil, or_false] at hb
        rcases hb with rfl | rfl | rfl <;> apply hbyte <;> omega
      · simp only [List.mem_cons, List.not_mem_nil, or_false] at hb
        rcases hb with rfl | rfl | rfl | rfl <;> apply hbyte <;> omega

theorem input_slot (kc : Keycode) (slot : ℕ) (h : keycodeToInputSlot kc = some slot) :
    slot < 20 ∧ ∃ e ∈ kKeyTable, kKeyTable[slot]? = some e ∧ e.keycode = kc := by
  obtain ⟨hl, hp, -⟩ := List.findIdx?_eq_some_iff_getElem.mp h
  exact ⟨hl, kKeyTable[slot], List.getElem_mem hl, List.getElem?_eq_getElem hl, by simpa using hp⟩

theorem find_key_entry (kc : Keycode) (e : KeyEntry) (h : findKeyEntry kc = some e) :
    e ∈ kKeyTable ∧ e.keycode = kc := by
  obtain ⟨slot, hs, he⟩ := Option.bind_eq_some_iff.mp h
  obtain ⟨-, e', hmem, he', hk⟩ := input_slot kc slot hs
  rw [he, Option.some.injEq] at he'
  exact he' ▸ ⟨hmem, hk⟩

theorem byte_slot (slot : ℕ) (h : slot < 20) : byteSlot (slotByte slot) = some slot := by
  have hd : ∀ k < 20, byteSlot (slotByte k) = some k := by decide
  exact hd slot h

theorem slot_byte_range (slot : ℕ) (h : slot < 20) : 0x20 ≤ slotByte slot ∧ slotByte slot ≤ 0x34 := by
  have hd : ∀ k < 20, 0x20 ≤ slotByte k ∧ slotByte k ≤ 0x34 := by decide
  exact hd slot h

end MokyaLora.Ime
