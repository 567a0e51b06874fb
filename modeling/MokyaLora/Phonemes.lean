import MokyaLora.Lib.Fields
import Mathlib.Data.List.DropRight
import Mathlib.Data.List.Forall2

/-!
# Phonetic readings and their keys

A reading is a string of Bopomofo syllables. A syllable is typed by the keys that
carry its phonemes; the first tone has no key. A key carries two or three
phonemes, so the builder also keeps the position of each phoneme on its key.
-/

set_option autoImplicit false

namespace MokyaLora.GenDict
open Lib.Fields

def bpmfKeymapRaw : List (List Char) :=
  [['ㄅ', 'ㄉ'], ['ˇ', 'ˋ'], ['ㄓ', 'ˊ'], ['˙', 'ㄚ'], ['ㄞ', 'ㄢ', 'ㄦ'], ['ㄆ', 'ㄊ'], ['ㄍ', 'ㄐ'],
    ['ㄔ', 'ㄗ'], ['ㄧ', 'ㄛ'], ['ㄟ', 'ㄣ'], ['ㄇ', 'ㄋ'], ['ㄎ', 'ㄑ'], ['ㄕ', 'ㄘ'], ['ㄨ', 'ㄜ'],
    ['ㄠ', 'ㄤ'], ['ㄈ', 'ㄌ'], ['ㄏ', 'ㄒ'], ['ㄖ', 'ㄙ'], ['ㄩ', 'ㄝ'], ['ㄡ', 'ㄥ']]

def keyOffset : ℕ := 0x21

def phonemeToKeyPos (ph : Char) : Option (ℕ × ℕ) :=
  bpmfKeymapRaw.zipIdx.findSome? (fun e => (e.1.idxOf? ph).map (fun pos => (e.2, pos)))

def phonemeToKey (ph : Char) : Option ℕ := (phonemeToKeyPos ph).map Prod.fst

def keyByte (idx : ℕ) : UInt8 := UInt8.ofNat (idx+keyOffset)

def phonemesToKeyseq (phs : List Char) : Bytes := (phs.filterMap phonemeToKey).map keyByte

def phonemesToKeyseqWithPos (phs : List Char) : Bytes × List ℕ :=
  let infos := phs.filterMap phonemeToKeyPos
  (infos.map (fun info => keyByte info.1), infos.map Prod.snd)

/-- Two bits for each of the first four positions. -/
def packPhonemePos (pos : List ℕ) : ℕ :=
  (pos.take 4).zipIdx.foldl (fun v p => v ||| ((min p.1 3 &&& 3) <<< (2*p.2))) 0

def digitTone (ch : Char) : Option Char :=
  match ch with
  | '2' => some 'ˊ'
  | '3' => some 'ˇ'
  | '4' => some 'ˋ'
  | '5' => some '˙'
  | _ => none

def parsePhoneme (ch : Char) : Option Char :=
  if 0x3100 ≤ ch.toNat ∧ ch.toNat ≤ 0x312F ∨ 0x31A0 ≤ ch.toNat ∧ ch.toNat ≤ 0x31BF then some ch
  else if ch ∈ ['ˊ', 'ˇ', 'ˋ', '˙'] then some ch
  else digitTone ch

def parseSyllable (syllable : List Char) : List Char := syllable.filterMap parsePhoneme

def isSpace (ch : Char) : Bool :=
  let cp := ch.toNat
  (0x09 ≤ cp && cp ≤ 0x0D) || (0x1C ≤ cp && cp ≤ 0x20) || cp == 0x85 || cp == 0xA0 ||
  cp == 0x1680 || (0x2000 ≤ cp && cp ≤ 0x200A) || cp == 0x2028 || cp == 0x2029 ||
  cp == 0x202F || cp == 0x205F || cp == 0x3000

def split (s : List Char) : List (List Char) := (s.splitOnP isSpace).filter (fun w => w ≠ [])

def strip (s : List Char) : List Char := (s.dropWhile isSpace).rdropWhile isSpace

/-- The phonemes of each syllable; syllables without any are dropped. -/
def parseReadingSyllables (reading : List Char) : List (List Char) :=
  let sylls := if ' ' ∈ reading then split reading else [reading]
  (sylls.map (fun syl => parseSyllable (strip syl))).filter (fun phs => phs ≠ [])

def toneOf (ph : Char) : Option ℕ :=
  match ph with
  | 'ˊ' => some 2
  | 'ˇ' => some 3
  | 'ˋ' => some 4
  | '˙' => some 5
  | _ => none

/-- The tone of the first tone mark, 1 without one. -/
def syllableTone (phs : List Char) : ℕ := (phs.findSome? toneOf).getD 1

/-- The distinct key sequences of the prefixes of a syllable. -/
def syllableChoices (syl : List Char) : List Bytes :=
  (List.range syl.length).foldl (fun choices n =>
    let key := phonemesToKeyseq (syl.take (n+1))
    if key ≠ [] ∧ choices.getLast? ≠ some key then choices++[key] else choices) []

def product {α : Type} : List (List α) → List (List α)
  | [] => [[]]
  | l::ls => l.flatMap (fun x => (product ls).map (fun xs => x::xs))

def abbreviatedKeyseqs (reading : List Char) (fullKeyseq : Bytes) : List Bytes :=
  let choices := (parseReadingSyllables reading).map syllableChoices
  if choices = [] ∨ [] ∈ choices then []
  else ((product choices).map List.flatten).foldl (fun variants variant =>
    if variant = fullKeyseq ∨ variant ∈ variants then variants else variants++[variant]) []

theorem keyseq_with_pos (phs : List Char) :
    (phonemesToKeyseqWithPos phs).1 = phonemesToKeyseq phs := by
  unfold phonemesToKeyseqWithPos phonemesToKeyseq
  dsimp only
  induction phs with
  | nil => rfl
  | cons ph phs ih =>
    simp only [List.filterMap_cons, phonemeToKey]
    cases h : phonemeToKeyPos ph with
    | none => exact ih
    | some info => exact congrArg (fun l => keyByte info.1::l) ih

theorem keyseq_pos_length (phs : List Char) :
    (phonemesToKeyseqWithPos phs).2.length = (phonemesToKeyseqWithPos phs).1.length := by
  simp [phonemesToKeyseqWithPos]

theorem keyseq_append (phs phs' : List Char) :
    phonemesToKeyseq (phs++phs') = phonemesToKeyseq phs++phonemesToKeyseq phs' := by
  simp [phonemesToKeyseq]

theorem keyseq_take_succ (syl : List Char) (n : ℕ) :
    phonemesToKeyseq (syl.take (n+1)) = phonemesToKeyseq (syl.take n) ∨
    ∃ key, phonemesToKeyseq (syl.take (n+1)) = phonemesToKeyseq (syl.take n)++[key] := by
  rw [List.take_add_one, keyseq_append]
  cases syl[n]? with
  | none => exact Or.inl (List.append_nil _)
  | some ph =>
    cases hk : phonemeToKey ph with
    | none => simp [phonemesToKeyseq, hk]
    | some idx => simp [phonemesToKeyseq, hk]

theorem mem_syllable_choices (syl : List Char) (v : Bytes) :
    v ∈ syllableChoices syl ↔ v ≠ [] ∧ v <+: phonemesToKeyseq syl := by
  have hfold : ∀ n, let choices := (List.range n).foldl (fun choices n =>
      let key := phonemesToKeyseq (syl.take (n+1))
      if key ≠ [] ∧ choices.getLast? ≠ some key then choices++[key] else choices) []
      (∀ v, v ∈ choices ↔ v ≠ [] ∧ v <+: phonemesToKeyseq (syl.take n)) ∧
      (phonemesToKeyseq (syl.take n) ≠ [] →
        choices.getLast? = some (phonemesToKeyseq (syl.take n))) := by
    intro n
    induction n with
    | zero => simp [phonemesToKeyseq]
    | succ n ih =>
      simp only [List.range_succ, List.foldl_append, List.foldl_cons, List.foldl_nil] at ih ⊢
      obtain ⟨hmem, hlast⟩ := ih
      rcases keyseq_take_succ syl n with heq | ⟨key, heq⟩
      · rw [heq, if_neg (by tauto)]
        exact ⟨hmem, hlast⟩
      · rw [heq, if_pos]
        · constructor
          · intro v
            rw [List.mem_append, hmem, List.mem_singleton, List.prefix_concat_iff]
            constructor
            · rintro (⟨hne, hpre⟩ | rfl)
              · exact ⟨hne, Or.inr hpre⟩
              · exact ⟨by simp, Or.inl rfl⟩
            · rintro ⟨hne, rfl | hpre⟩
              · exact Or.inr rfl
              · exact Or.inl ⟨hne, hpre⟩
          · intro _
            exact List.getLast?_concat
        · refine ⟨by simp, fun hsame => ?_⟩
          have hin := (hmem _).mp (List.mem_of_getLast? hsame)
          have := hin.2.length_le
          rw [List.length_append, List.length_singleton] at this
          omega
  have h := (hfold syl.length).1 v
  rw [List.take_length] at h
  exact h

theorem mem_product {α : Type} (ls : List (List α)) (xs : List α) :
    xs ∈ product ls ↔ List.Forall₂ (fun x l => x ∈ l) xs ls := by
  induction ls generalizing xs with
  | nil => cases xs <;> simp [product]
  | cons l ls ih => cases xs <;> simp [product, ih]

theorem phoneme_key_pos (ph : Char) (idx pos : ℕ) (h : phonemeToKeyPos ph = some (idx, pos)) :
    idx < 20 ∧ pos < 3 := by
  obtain ⟨e, he, hm⟩ := List.exists_of_findSome?_eq_some h
  obtain ⟨p, hp, heq⟩ := Option.map_eq_some_iff.mp hm
  obtain ⟨rfl, rfl⟩ := Prod.mk.inj heq
  have hrow : ∀ e ∈ bpmfKeymapRaw.zipIdx, e.2 < 20 ∧ e.1.length ≤ 3 := by decide
  have hlt : p < e.1.length := by
    have := List.findIdx?_eq_some_iff_getElem.mp hp
    exact this.1
  have := hrow e he
  omega

theorem key_byte_range (idx : ℕ) (h : idx < 20) : 0x21 ≤ keyByte idx ∧ keyByte idx ≤ 0x34 := by
  have hall : ∀ k < 20, 0x21 ≤ keyByte k ∧ keyByte k ≤ 0x34 := by decide
  exact hall idx h

theorem keyseq_range (phs : List Char) :
    (∀ b ∈ (phonemesToKeyseqWithPos phs).1, 0x21 ≤ b ∧ b ≤ 0x34) ∧
    ∀ p ∈ (phonemesToKeyseqWithPos phs).2, p < 3 := by
  simp only [phonemesToKeyseqWithPos, List.mem_map, List.mem_filterMap]
  constructor
  · rintro b ⟨⟨idx, pos⟩, ⟨ph, -, h⟩, rfl⟩
    exact key_byte_range idx (phoneme_key_pos ph idx pos h).1
  · rintro p ⟨⟨idx, pos⟩, ⟨ph, -, h⟩, rfl⟩
    exact (phoneme_key_pos ph idx pos h).2

theorem syllable_tone_range (phs : List Char) : 1 ≤ syllableTone phs ∧ syllableTone phs ≤ 5 := by
  unfold syllableTone
  cases h : phs.findSome? toneOf with
  | none => decide
  | some tone =>
    obtain ⟨ph, -, hp⟩ := List.exists_of_findSome?_eq_some h
    unfold toneOf at hp
    split at hp
    all_goals cases hp
    all_goals decide

end MokyaLora.GenDict
