import MokyaLora.ImePending
import MokyaLora.Lib.Filling

/-!
# The end of a display that is too long

The strings of the keys are appended one by one, and one that would fill the display is
left out without ending the loop. So the display is a front of the rendering unless a
shorter string comes behind one that ends at the limit.
-/

set_option autoImplicit false

namespace MokyaLora.Ime
open Lib.Fields Lib.Memory Lib.Filling

def tokensFrom (isZh : Bool) : ℕ → List (UInt8 × UInt8) → List Bytes
  | _, [] => []
  | i, (b, hint)::rest => keyPieces isZh i b hint++tokensFrom isZh (i+1) rest

def ImeLogic.tokens (s : ImeLogic) : List Bytes :=
  tokensFrom (s.mode == .smartZh) 0 (s.keys.zip s.hints)

def ImeLogic.matchedTokens (s : ImeLogic) : List Bytes :=
  tokensFrom (s.mode == .smartZh) 0 ((s.keys.zip s.hints).take s.matchedPrefixKeys)

/-- The display is cut in front of token `k`, which does not fit, and the matched bytes
are those of the matched tokens in front of it. -/
structure Truncated (s : ImeLogic) (k : ℕ) : Prop where
  display : CutAt kMaxDisplayBytes s.tokens s.rebuildDisplaySmart.display k
  matched : s.rebuildDisplaySmart.matchedPrefixBytes = (s.matchedTokens.take k).flatten.length

/-- A token ends exactly at the limit, and one behind it is shorter. -/
def EndsAtLimit (tokens : List Bytes) : Prop :=
  ∃ pre p post, tokens = pre++p::post ∧ pre.flatten.length+p.length = kMaxDisplayBytes ∧
    ∃ q ∈ post, q.length < p.length

def renderedStrings (isZh : Bool) : List Bytes :=
  utf8 'ˉ'::if isZh then text [',', ' ']::kKeyTable.flatMap (fun e => e.phonemes.map utf8)
    else kKeyTable.flatMap (fun e => (e.letterSlots++e.digitSlots).map utf8)

theorem rendered_apart (isZh : Bool) : ∀ p ∈ renderedStrings isZh, ∀ q ∈ renderedStrings isZh,
    p.length ≤ q.length+1 ∧ (q.length < p.length → ¬ q <+: p) := by
  cases isZh <;> decide +kernel

theorem separator_rendered (isZh : Bool) (i : ℕ) :
    ∀ p ∈ (if isZh = true ∧ 0 < i then [text [',', ' ']] else []), p ∈ renderedStrings isZh := by
  intro p hp
  split at hp
  · rename_i hzh
    rw [List.mem_singleton.mp hp, renderedStrings, if_pos hzh.1]
    simp
  · cases hp

theorem phoneme_rendered (e : KeyEntry) (he : e ∈ kKeyTable) (c : Char) (hc : c ∈ e.phonemes) :
    utf8 c ∈ renderedStrings true := by
  rw [renderedStrings, if_pos rfl]
  exact List.mem_cons_of_mem _ (List.mem_cons_of_mem _
    (List.mem_flatMap.mpr ⟨e, he, List.mem_map_of_mem hc⟩))

theorem letter_rendered (e : KeyEntry) (he : e ∈ kKeyTable) (c : Char)
    (hc : c ∈ e.letterSlots++e.digitSlots) : utf8 c ∈ renderedStrings false := by
  rw [renderedStrings, if_neg (by decide)]
  exact List.mem_cons_of_mem _ (List.mem_flatMap.mpr ⟨e, he, List.mem_map_of_mem hc⟩)

theorem key_pieces_rendered (isZh : Bool) (i : ℕ) (b hint : UInt8) :
    ∀ p ∈ keyPieces isZh i b hint, p ∈ renderedStrings isZh := by
  intro p hp
  unfold keyPieces at hp
  dsimp only at hp
  split at hp
  · rcases List.mem_append.mp hp with hp | hp
    · exact separator_rendered isZh i p hp
    · rw [List.mem_singleton.mp hp]
      exact List.mem_cons_self
  split at hp
  · cases hp
  rename_i e he
  obtain ⟨slot, -, hget⟩ := Option.bind_eq_some_iff.mp he
  have hmem := List.mem_of_getElem? hget
  cases isZh with
  | true =>
    rw [if_pos rfl] at hp
    split at hp
    · rcases List.mem_append.mp hp with hp | hp
      · exact separator_rendered true i p hp
      · obtain ⟨c, hc, rfl⟩ := Option.map_eq_some_iff.mp (Option.mem_toList.mp hp)
        exact phoneme_rendered e hmem c (List.mem_of_getElem? hc)
    · rcases List.mem_append.mp hp with hp | hp
      · exact separator_rendered true i p hp
      · obtain ⟨c, hc, rfl⟩ := List.mem_map.mp hp
        exact phoneme_rendered e hmem c hc
  | false =>
    rw [if_neg (by decide)] at hp
    split at hp
    · rename_i hletters
      rw [List.mem_singleton.mp hp]
      exact letter_rendered e hmem _ (by simp [hletters])
    · rename_i hdigits
      rw [List.mem_singleton.mp hp]
      exact letter_rendered e hmem _ (by simp [hdigits])
    · cases hp

theorem tokens_rendered (isZh : Bool) (i : ℕ) (ks : List (UInt8 × UInt8)) :
    ∀ p ∈ tokensFrom isZh i ks, p ∈ renderedStrings isZh := by
  induction ks generalizing i with
  | nil =>
    intro p hp
    cases hp
  | cons k ks ih =>
    intro p hp
    rcases List.mem_append.mp hp with hp | hp
    · exact key_pieces_rendered isZh i k.1 k.2 p hp
    · exact ih (i+1) p hp

theorem tokens_append (isZh : Bool) (i : ℕ) (ks ls : List (UInt8 × UInt8)) :
    tokensFrom isZh i (ks++ls) = tokensFrom isZh i ks++tokensFrom isZh (i+ks.length) ls := by
  induction ks generalizing i with
  | nil => rfl
  | cons k ks ih =>
    rw [List.cons_append, tokensFrom, tokensFrom, ih, List.append_assoc, List.length_cons,
      Nat.add_assoc, Nat.add_comm 1]

theorem letter_piece (i : ℕ) (b hint : UInt8) : (keyPieces false i b hint).length ≤ 1 := by
  unfold keyPieces
  simp only [Bool.false_eq_true, false_and, if_false, List.nil_append]
  split
  · simp
  · split
    · simp
    · split <;> simp

theorem letters_length (i : ℕ) (ks : List (UInt8 × UInt8)) :
    (tokensFrom false i ks).flatten.length ≤ 2*ks.length := by
  have hshort : ∀ p ∈ renderedStrings false, p.length ≤ 2 := by decide +kernel
  induction ks generalizing i with
  | nil => exact le_refl _
  | cons k ks ih =>
    have hrest := ih (i+1)
    have hkey : (keyPieces false i k.1 k.2).flatten.length ≤ 2 := by
      have hone := letter_piece i k.1 k.2
      have hmem := key_pieces_rendered false i k.1 k.2
      cases hk : keyPieces false i k.1 k.2 with
      | nil => simp
      | cons p rest =>
        rw [hk, List.length_cons] at hone
        rw [List.length_eq_zero_iff.mp (show rest.length = 0 by omega), List.flatten_singleton]
        exact hshort p (hmem p (by simp [hk]))
    rw [tokensFrom, List.flatten_append, List.length_append, List.length_cons]
    omega

theorem render_fills (isZh : Bool) (i : ℕ) (ks : List (UInt8 × UInt8)) (d : Bytes) :
    renderFrom isZh i ks d = fill kMaxDisplayBytes d (tokensFrom isZh i ks) := by
  induction ks generalizing i d with
  | nil => rfl
  | cons k ks ih =>
    rw [renderFrom, tokensFrom, fill_append, ih, pieces_fill]

section Rebuild

variable (s : ImeLogic)

theorem zip_length : (s.keys.zip s.hints).length = s.keySeqLen := by
  simp [ImeLogic.keys, ImeLogic.hints]

theorem rebuild_fills : s.rebuildDisplaySmart.display = fill kMaxDisplayBytes [] s.tokens :=
  (rebuild_from_display s 0 (s.keys.zip s.hints) ([], 0)).trans (render_fills _ _ _ _)

theorem rebuild_from_noted (i : ℕ) (ks : List (UInt8 × UInt8)) (acc : Bytes × ℕ) :
    (s.rebuildFrom i ks acc).2 =
      if i ≤ s.matchedPrefixKeys ∧ s.matchedPrefixKeys < i+ks.length then
        (renderFrom (s.mode == .smartZh) i (ks.take (s.matchedPrefixKeys-i)) acc.1).length
      else acc.2 := by
  induction ks generalizing i acc with
  | nil =>
    rw [if_neg (by simp)]
    rfl
  | cons k ks ih =>
    rw [ImeLogic.rebuildFrom, ih, List.length_cons]
    dsimp only
    rcases Nat.lt_trichotomy i s.matchedPrefixKeys with hlt | heq | hgt
    · have hnext : s.matchedPrefixKeys-i = (s.matchedPrefixKeys-(i+1))+1 := by omega
      rw [hnext, List.take_succ_cons, renderFrom]
      split_ifs <;> first | rfl | omega
    · rw [if_neg (by omega), if_pos heq, if_pos (by omega), ← heq, Nat.sub_self, List.take_zero]
      rfl
    · rw [if_neg (by omega), if_neg (by omega), if_neg (by omega)]

theorem rebuild_matched : s.rebuildDisplaySmart.matchedPrefixBytes =
    (fill kMaxDisplayBytes [] s.matchedTokens).length := by
  have hlen := zip_length s
  rw [ImeLogic.matchedTokens, ← render_fills]
  show (if s.keySeqLen ≤ s.matchedPrefixKeys then s.rebuildDisplaySmart.display.length
    else (s.rebuildFrom 0 (s.keys.zip s.hints) ([], 0)).2) = _
  split
  · rename_i hall
    rw [List.take_of_length_le (by omega)]
    exact congrArg List.length (rebuild_from_display s 0 (s.keys.zip s.hints) ([], 0))
  · rename_i hpart
    rw [rebuild_from_noted, if_pos (by omega), Nat.sub_zero]

theorem matched_front : s.matchedTokens <+: s.tokens := by
  refine ⟨tokensFrom (s.mode == .smartZh)
    (0+((s.keys.zip s.hints).take s.matchedPrefixKeys).length)
    ((s.keys.zip s.hints).drop s.matchedPrefixKeys), ?_⟩
  rw [ImeLogic.matchedTokens, ← tokens_append, List.take_append_drop]
  rfl

theorem overtakes_at_limit : Overtakes kMaxDisplayBytes s.tokens ↔ EndsAtLimit s.tokens :=
  overtakes_iff kMaxDisplayBytes s.tokens fun p hp q hq =>
    (rendered_apart _ p (tokens_rendered _ _ _ p hp) q (tokens_rendered _ _ _ q hq)).1

/-- Behind a token that is left out a shorter one is shown, which does not stand there in
the rendering. -/
theorem token_skipped (h : EndsAtLimit s.tokens) :
    ¬ s.rebuildDisplaySmart.display <+: s.tokens.flatten := by
  rw [rebuild_fills]
  refine overtaken_not_front kMaxDisplayBytes s.tokens (fun p hp q hq => ?_)
    ((overtakes_at_limit s).mpr h)
  exact (rendered_apart _ p (tokens_rendered _ _ _ p hp) q (tokens_rendered _ _ _ q hq)).2

/-- Outside SmartZh all keys are shown. -/
theorem letters_whole (hmode : s.mode ≠ .smartZh) (hlen : s.keySeqLen ≤ kMaxKeySeq) :
    s.rebuildDisplaySmart.display = s.tokens.flatten ∧ ¬ EndsAtLimit s.tokens := by
  have hen : (s.mode == .smartZh) = false := beq_eq_false_iff_ne.mpr hmode
  have hkeys := zip_length s
  have hroom : s.tokens.flatten.length < kMaxDisplayBytes := by
    have hletters := letters_length 0 (s.keys.zip s.hints)
    rw [ImeLogic.tokens, hen]
    simp only [kMaxKeySeq] at hlen
    simp only [kMaxDisplayBytes]
    omega
  constructor
  · rw [rebuild_fills, fill_room kMaxDisplayBytes [] s.tokens (by simpa using hroom)]
    rfl
  · rintro ⟨pre, p, post, heq, hend, -⟩
    rw [heq, List.flatten_append, List.flatten_cons, List.length_append, List.length_append] at hroom
    omega

end Rebuild

/-- The display is the rendering cut in front of a token, with the matched bytes in it,
just if no token that ends at the limit has a shorter one behind it. -/
theorem truncated_iff (s : ImeLogic) : (∃ k, Truncated s k) ↔ ¬ EndsAtLimit s.tokens := by
  constructor
  · rintro ⟨k, hcut, -⟩ hlimit
    exact token_skipped s hlimit hcut.front
  · intro h
    obtain ⟨k, hcut, hfront⟩ := fill_cut kMaxDisplayBytes s.tokens (by decide)
      (fun ho => h ((overtakes_at_limit s).mp ho))
    refine ⟨k, by rwa [rebuild_fills], ?_⟩
    rw [rebuild_matched, hfront s.matchedTokens (matched_front s)]

/-- The key of ㄅ and ㄉ, then 36 times that of ㄓ and ˊ. -/
def tornGroup : List Call := press 0x01 0::List.replicate 36 (press 0x03 0)

/-- The last group is shown as ˊ, since its ㄓ would end at the limit. -/
theorem group_torn :
    ¬ (ImeLogic.run bareEnv tornGroup).display <+: (ImeLogic.run bareEnv tornGroup).tokens.flatten ∧
    ¬ ∃ k, Truncated (ImeLogic.run bareEnv tornGroup) k := by
  have hdisplay : (ImeLogic.run bareEnv tornGroup).rebuildDisplaySmart.display =
      (ImeLogic.run bareEnv tornGroup).display := by decide +kernel
  have hfront : ¬ (ImeLogic.run bareEnv tornGroup).display <+:
      (ImeLogic.run bareEnv tornGroup).tokens.flatten := by decide +kernel
  refine ⟨hfront, ?_⟩
  rintro ⟨k, hcut, -⟩
  exact hfront (hdisplay ▸ hcut.front)

end MokyaLora.Ime
