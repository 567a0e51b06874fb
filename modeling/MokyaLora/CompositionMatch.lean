import MokyaLora.DictRoundTrip
import MokyaLora.Lib.Prefixes

/-!
# What the matcher accepts

The keys of a word may be shortened syllable by syllable. The matcher accepts the
inputs that start a sequence of shortened readings, with the hints on the
positions they fall on.
-/

set_option autoImplicit false

namespace MokyaLora.CompositionSearcher
open Lib.Fields Lib.Prefixes GenDict

theorem pack_four (pos : List ℕ) (hlen : pos.length ≤ 4) :
    packPhonemePos pos = 0 ||| min (pos.getD 0 0) 3 <<< 0 ||| min (pos.getD 1 0) 3 <<< 2 |||
      min (pos.getD 2 0) 3 <<< 4 ||| min (pos.getD 3 0) 3 <<< 6 := by
  have hmask : ∀ m : ℕ, min m 3 &&& 3 = min m 3 := by
    intro m
    have hall : ∀ v ≤ 3, v &&& 3 = v := by decide
    exact hall _ (Nat.min_le_right m 3)
  rw [packPhonemePos, List.take_of_length_le hlen]
  match pos, hlen with
  | [], _ => rfl
  | [a], _ => simp [hmask]
  | [a, b], _ => simp [hmask]
  | [a, b, c], _ => simp [hmask]
  | [a, b, c, d], _ => simp [hmask]

theorem unpack_four : ∀ a < 4, ∀ b < 4, ∀ c < 4, ∀ d < 4, ∀ k < 4,
    unpackPhonemePos (0 ||| a <<< 0 ||| b <<< 2 ||| c <<< 4 ||| d <<< 6) k =
      [a, b, c, d].getD k 0 := by
  decide +kernel

theorem unpack_pack (pos : List ℕ) (hlen : pos.length ≤ 4) (k : ℕ) (hk : k < pos.length) :
    unpackPhonemePos (packPhonemePos pos) k = min pos[k] 3 := by
  have hlt : ∀ m : ℕ, min m 3 < 4 := fun m => Nat.lt_succ_of_le (Nat.min_le_right m 3)
  have hk4 : k < 4 := by omega
  have hget : pos.getD k 0 = pos[k] := by
    rw [List.getD_eq_getElem?_getD, List.getElem?_eq_getElem hk, Option.getD_some]
  rw [pack_four pos hlen, unpack_four _ (hlt _) _ (hlt _) _ (hlt _) _ (hlt _) k hk4, ← hget]
  match k, hk4 with
  | 0, _ => rfl
  | 1, _ => rfl
  | 2, _ => rfl
  | 3, _ => rfl

theorem mem_tried (klen : ℕ) (h : klen ≤ 4) (n : ℕ) :
    n ∈ triedLengths klen ↔ 1 ≤ n ∧ n ≤ klen := by
  by_cases hn : n ≤ 4
  · have hall : ∀ k ≤ 4, ∀ m ≤ 4, m ∈ triedLengths k ↔ 1 ≤ m ∧ m ≤ k := by decide
    exact hall klen h n hn
  · have hall : ∀ k ≤ 4, ∀ m ∈ triedLengths k, m ≤ 4 := by decide
    constructor
    · intro hmem
      exact absurd (hall klen h n hmem) hn
    · intro hle
      omega

/-- The phonemes of a reading: each key with the position on it. -/
def phonemes (r : Reading) : List (UInt8 × ℕ) := r.keyseq.zip r.pos

def PhonemeAgrees (a : UInt8 × ℕ) (b : UInt8 × UInt8) : Prop :=
  a.1 = b.1 ∧ (b.2 ≠ kPhonemeHintAny → a.2 = b.2.toNat)

/-- Every key with its hint. -/
def hintedKeys (keys : Bytes) (hints : Option Bytes) : List (UInt8 × UInt8) :=
  match hints with
  | none => keys.map (fun k => (k, kPhonemeHintAny))
  | some hs => keys.zip hs

/-- Hints for all keys; a hint is a position or leaves it open. -/
def HintsOk (keys : Bytes) (hints : Option Bytes) : Prop :=
  ∀ hs, hints = some hs → hs.length = keys.length ∧
    ∀ h ∈ hs, h = kPhonemeHintAny ∨ h.toNat ≤ 2

def HintsAgree (hints : Option Bytes) (pos : List ℕ) : Prop :=
  ∀ hs, hints = some hs → ∀ i, ∀ h : i < hs.length, hs[i] ≠ kPhonemeHintAny →
    pos[i]? = some hs[i].toNat

structure ShortReading (r : Reading) : Prop where
  ne_nil : r.keyseq ≠ []
  short : r.keyseq.length ≤ 4
  pos : r.pos.length = r.keyseq.length

/-- A stored reading has the keys, and the positions where they matter. -/
def Carries (usePos : Bool) (r : Reading) (v : Option ReadingView) : Prop :=
  ∃ view, v = some view ∧ view.keyseq = r.keyseq ∧
    (usePos = true → view.posPacked = packPhonemePos r.pos)

theorem hinted_keys_length (keys : Bytes) (hints : Option Bytes) (h : HintsOk keys hints) :
    (hintedKeys keys hints).length = keys.length := by
  cases hints with
  | none => simp [hintedKeys]
  | some hs => simp [hintedKeys, (h hs rfl).1]

theorem hints_ok_drop (keys : Bytes) (hints : Option Bytes) (h : HintsOk keys hints) (n : ℕ) :
    HintsOk (keys.drop n) (hints.map (fun hs => hs.drop n)) := by
  intro hs heq
  obtain ⟨hs', rfl, rfl⟩ := Option.map_eq_some_iff.mp heq
  obtain ⟨hlen, hall⟩ := h hs' rfl
  refine ⟨by simp [hlen], fun hint hmem => hall hint (List.mem_of_mem_drop hmem)⟩

theorem hinted_keys_drop (keys : Bytes) (hints : Option Bytes) (n : ℕ) :
    hintedKeys (keys.drop n) (hints.map (fun hs => hs.drop n)) =
      (hintedKeys keys hints).drop n := by
  cases hints with
  | none => simp [hintedKeys, List.map_drop]
  | some hs => simp [hintedKeys, List.zip, List.drop_zipWith]

theorem agrees_keys_hints (as : List (UInt8 × ℕ)) (keys : Bytes) (hints : Option Bytes)
    (h : HintsOk keys hints) :
    Agrees PhonemeAgrees as (hintedKeys keys hints) ↔
      keys <+: as.map Prod.fst ∧ HintsAgree hints (as.map Prod.snd) := by
  rw [← agrees_eq, agrees_get, agrees_get]
  have hfst : ∀ i (a : UInt8 × ℕ), as[i]? = some a → (as.map Prod.fst)[i]? = some a.1 :=
    fun i a ha => by rw [List.getElem?_map, ha, Option.map_some]
  have hsnd : ∀ i (a : UInt8 × ℕ), as[i]? = some a → (as.map Prod.snd)[i]? = some a.2 :=
    fun i a ha => by rw [List.getElem?_map, ha, Option.map_some]
  have hget : ∀ (i : ℕ) (k : UInt8), (as.map Prod.fst)[i]? = some k →
      ∃ a : UInt8 × ℕ, as[i]? = some a ∧ a.1 = k := by
    intro i k hk
    rw [List.getElem?_map] at hk
    exact Option.map_eq_some_iff.mp hk
  cases hints with
  | none =>
    simp only [hintedKeys, List.length_map, List.getElem_map, PhonemeAgrees]
    constructor
    · intro hall
      refine ⟨fun i hi => ?_, fun hs hnone => by cases hnone⟩
      obtain ⟨a, ha, hk, -⟩ := hall i hi
      exact ⟨a.1, hfst i a ha, hk⟩
    · rintro ⟨hkeys, -⟩ i hi
      obtain ⟨k, hk, rfl⟩ := hkeys i hi
      obtain ⟨a, ha, hak⟩ := hget i _ hk
      exact ⟨a, ha, hak, fun hany => absurd rfl hany⟩
  | some hs =>
    have hlen := (h hs rfl).1
    simp only [hintedKeys, List.length_zip, List.getElem_zip, PhonemeAgrees, hlen, Nat.min_self]
    constructor
    · intro hall
      constructor
      · intro i hi
        obtain ⟨a, ha, hk, -⟩ := hall i hi
        exact ⟨a.1, hfst i a ha, hk⟩
      · intro hs' heq i hi hany
        cases heq
        obtain ⟨a, ha, -, hp⟩ := hall i (by omega)
        rw [hsnd i a ha, hp hany]
    · rintro ⟨hkeys, hhints⟩ i hi
      obtain ⟨k, hk, rfl⟩ := hkeys i hi
      obtain ⟨a, ha, hak⟩ := hget i _ hk
      refine ⟨a, ha, hak, fun hany => ?_⟩
      have hp := hhints hs rfl i (by omega) hany
      rw [hsnd i a ha] at hp
      exact Option.some.inj hp

theorem hints_ok_take (keys : Bytes) (hints : Option Bytes) (h : HintsOk keys hints) (n : ℕ) :
    HintsOk (keys.take n) (hints.map (fun hs => hs.take n)) := by
  intro hs heq
  obtain ⟨hs', rfl, rfl⟩ := Option.map_eq_some_iff.mp heq
  obtain ⟨hlen, hall⟩ := h hs' rfl
  exact ⟨by simp [hlen], fun hint hmem => hall hint (List.mem_of_mem_take hmem)⟩

theorem hinted_keys_take (keys : Bytes) (hints : Option Bytes) (n : ℕ) :
    hintedKeys (keys.take n) (hints.map (fun hs => hs.take n)) =
      (hintedKeys keys hints).take n := by
  cases hints with
  | none => simp [hintedKeys, List.map_take]
  | some hs => simp [hintedKeys, List.zip, List.take_zipWith]

theorem pos_ok_iff (pos : List ℕ) (hlen : pos.length ≤ 4) (keys : Bytes) (hints : Option Bytes)
    (h : HintsOk keys hints) (packed : ℕ)
    (hpacked : hints.isSome → packed = packPhonemePos pos) (n : ℕ) (hn : n ≤ pos.length) :
    posOk packed hints (min n keys.length) = true ↔
      HintsAgree (hints.map (fun hs => hs.take n)) (pos.take n) := by
  cases hints with
  | none =>
    simp only [posOk, true_iff]
    intro hs hnone
    cases hnone
  | some hs =>
    obtain ⟨hl, hall⟩ := h hs rfl
    obtain rfl := hpacked rfl
    have hget : ∀ k, ∀ hk : k < hs.length, hs.getD k kPhonemeHintAny = hs[k] := by
      intro k hk
      rw [List.getD_eq_getElem?_getD, List.getElem?_eq_getElem hk, Option.getD_some]
    have hpos : ∀ k, ∀ hk : k < hs.length, k < n → hs[k] ≠ kPhonemeHintAny →
        (unpackPhonemePos (packPhonemePos pos) k = hs[k].toNat ↔ pos[k]? = some hs[k].toNat) := by
      intro k hk hkn hany
      have hsmall := (hall hs[k] (List.getElem_mem hk)).resolve_left hany
      rw [unpack_pack pos hlen k (by omega), List.getElem?_eq_getElem (by omega), Option.some.injEq]
      omega
    simp only [posOk, List.all_eq_true, List.mem_range, Bool.or_eq_true, beq_iff_eq]
    constructor
    · intro hcheck hs' heq i hi hany
      cases heq
      have hi' : i < n ∧ i < hs.length := by
        simp only [List.length_take] at hi
        omega
      rw [List.getElem_take] at hany ⊢
      rw [List.getElem?_take_of_lt hi'.1]
      have hc := hcheck i (by omega)
      rw [hget i hi'.2] at hc
      exact (hpos i hi'.2 hi'.1 hany).mp (hc.resolve_left hany)
    · intro hagree k hk
      have hk' : k < n ∧ k < hs.length := by omega
      rw [hget k hk'.2]
      by_cases hany : hs[k] = kPhonemeHintAny
      · exact Or.inl hany
      · refine Or.inr ((hpos k hk'.2 hk'.1 hany).mpr ?_)
        have hp := hagree _ rfl k (by rw [List.length_take]; omega) (by rwa [List.getElem_take])
        rwa [List.getElem_take, List.getElem?_take_of_lt hk'.1] at hp

theorem prefix_agrees (r : Reading) (hr : ShortReading r) (keys : Bytes) (hints : Option Bytes)
    (h : HintsOk keys hints) (packed : ℕ) (hpacked : hints.isSome → packed = packPhonemePos r.pos)
    (n : ℕ) (hn : n ≤ r.keyseq.length) :
    Agrees PhonemeAgrees ((phonemes r).take n) ((hintedKeys keys hints).take n) ↔
      r.keyseq.take (min n keys.length) = keys.take (min n keys.length) ∧
      posOk packed hints (min n keys.length) = true := by
  have hlen := hr.pos
  have hshort := hr.short
  rw [← hinted_keys_take, agrees_keys_hints _ _ _ (hints_ok_take keys hints h n),
    pos_ok_iff r.pos (by omega) keys hints h packed hpacked n (by omega)]
  rw [phonemes, List.map_take, List.map_take, List.map_fst_zip (by omega),
    List.map_snd_zip (by omega), List.prefix_iff_eq_take, List.take_take, List.length_take]
  have hkeys : keys.take (min n keys.length) = keys.take n := by
    rw [← List.take_take, List.take_length]
  rw [Nat.min_eq_left (Nat.min_le_left n keys.length), hkeys, eq_comm]

theorem consumed_keys (r : ReadingView) (keys : Bytes) (hspace : 0x20 ∉ keys) (n : ℕ) :
    consumedKeys r keys n = n := by
  unfold consumedKeys
  split
  · rename_i h
    exact absurd (List.mem_of_getElem? h.2.2) hspace
  · rfl

theorem recurse_covers (usePos : Bool) (rs : List Reading) (hr : ∀ r ∈ rs, ShortReading r)
    (views : List (Option ReadingView)) (hv : List.Forall₂ (Carries usePos) rs views) (keys : Bytes)
    (hspace : 0x20 ∉ keys) (hints : Option Bytes) (h : HintsOk keys hints)
    (huse : hints.isSome → usePos = true) :
    compositionRecurse views keys hints = true ↔
      Covers PhonemeAgrees (rs.map phonemes) (hintedKeys keys hints) := by
  have hne : ∀ rs : List Reading, (∀ r ∈ rs, ShortReading r) → ∀ w ∈ rs.map phonemes, w ≠ [] := by
    intro rs hr w hw
    obtain ⟨r, hmem, rfl⟩ := List.mem_map.mp hw
    have hpos := (hr r hmem).pos
    have hkeys := List.length_pos_iff.mpr (hr r hmem).ne_nil
    rw [← List.length_pos_iff, phonemes, List.length_zip]
    omega
  induction hv generalizing keys hints with
  | nil =>
    rw [List.map_nil, nil_covers, ← List.length_eq_zero_iff, hinted_keys_length keys hints h]
    cases keys <;> simp [compositionRecurse]
  | @cons r v rs views hcarry hviews ih =>
    obtain ⟨view, rfl, hkeyseq, hpacked⟩ := hcarry
    have hshort := hr r (by simp)
    have hlen : (phonemes r).length = r.keyseq.length := by
      rw [phonemes, List.length_zip, hshort.pos, Nat.min_self]
    cases keys with
    | nil =>
      have hnil : hintedKeys [] hints = [] :=
        List.eq_nil_of_length_eq_zero (hinted_keys_length [] hints h)
      rw [hnil]
      exact iff_of_true (by simp [compositionRecurse]) (covers_nil _ _ (hne (r::rs) hr))
    | cons k ks =>
      have hrest : ∀ q ∈ rs, ShortReading q := fun q hq => hr q (by simp [hq])
      rw [List.map_cons, covers_cons, hlen, compositionRecurse]
      simp only [List.any_eq_true]
      rw [hkeyseq]
      simp only [mem_tried r.keyseq.length hshort.short]
      apply exists_congr
      intro n
      apply and_congr_right
      intro hn
      rw [prefix_agrees r hshort (k::ks) hints h view.posPacked (fun hs => hpacked (huse hs)) n hn.2,
        ← hinted_keys_drop]
      by_cases hlt : (k::ks).length < n
      · rw [if_pos hlt, Nat.min_eq_right (le_of_lt hlt), List.take_length]
        have hdrop : (k::ks).drop n = [] := List.drop_eq_nil_of_le (le_of_lt hlt)
        have hnil := List.eq_nil_of_length_eq_zero
          (hinted_keys_length _ _ (hints_ok_drop (k::ks) hints h n) |>.trans (by rw [hdrop]; rfl))
        rw [hnil, Bool.and_eq_true, beq_iff_eq]
        exact (and_iff_left (covers_nil _ _ (hne rs hrest))).symm
      · rw [if_neg hlt, Nat.min_eq_left (not_lt.mp hlt), consumed_keys view _ hspace n]
        have hstep := ih hrest ((k::ks).drop n) (fun hmem => hspace (List.mem_of_mem_drop hmem))
          (hints.map (fun hs => hs.drop n)) (hints_ok_drop _ _ h n) (by simpa using huse)
        refine Iff.trans ?_ (and_congr_right (fun _ => hstep))
        rw [Bool.if_false_right, Bool.and_eq_true, Bool.decide_eq_true, Bool.and_eq_true, beq_iff_eq]

theorem mem_distinct (full : Bytes) (l : List Bytes) (v : Bytes) :
    v ∈ l.foldl (fun variants variant => if variant = full ∨ variant ∈ variants then variants
      else variants++[variant]) [] ↔ v ∈ l ∧ v ≠ full := by
  have hfold : ∀ (l variants : List Bytes), (∀ u ∈ variants, u ≠ full) →
      (v ∈ l.foldl (fun variants variant => if variant = full ∨ variant ∈ variants then variants
        else variants++[variant]) variants ↔ v ∈ variants ∨ v ∈ l ∧ v ≠ full) := by
    intro l
    induction l with
    | nil => simp
    | cons u l ih =>
      intro variants hfull
      rw [List.foldl_cons]
      split
      · rename_i hskip
        rw [ih variants hfull, List.mem_cons]
        rcases hskip with rfl | hmem
        · tauto
        · constructor
          · tauto
          · rintro (hv | ⟨rfl | hv, hne⟩)
            · exact Or.inl hv
            · exact Or.inl hmem
            · exact Or.inr ⟨hv, hne⟩
      · rename_i hnew
        rw [ih (variants++[u]) (by
          intro x hx
          rcases List.mem_append.mp hx with hx | hx
          · exact hfull x hx
          · rw [List.mem_singleton.mp hx]
            exact fun heq => hnew (Or.inl heq))]
        rw [List.mem_append, List.mem_singleton, List.mem_cons]
        constructor
        · rintro ((hv | rfl) | hv)
          · exact Or.inl hv
          · exact Or.inr ⟨Or.inl rfl, fun heq => hnew (Or.inl heq)⟩
          · exact Or.inr ⟨Or.inr hv.1, hv.2⟩
        · tauto
  simpa using hfold l [] (by simp)

theorem mem_products (syls : List (List Char)) (v : Bytes) :
    v ∈ (product (syls.map syllableChoices)).map List.flatten ↔
      ∃ ns, Choice (syls.map phonemesToKeyseq) ns ∧ v = chosen (syls.map phonemesToKeyseq) ns := by
  have hchoices : List.Forall₂ (fun w l => ∀ v, v ∈ l ↔ v ≠ [] ∧ v <+: w)
      (syls.map phonemesToKeyseq) (syls.map syllableChoices) := by
    rw [List.forall₂_map_left_iff, List.forall₂_map_right_iff, List.forall₂_same]
    exact fun syl _ => mem_syllable_choices syl
  rw [List.mem_map]
  constructor
  · rintro ⟨vs, hvs, rfl⟩
    obtain ⟨ns, hns, rfl⟩ := (mem_chosen _ _ hchoices vs).mp ((mem_product _ vs).mp hvs)
    exact ⟨ns, hns, rfl⟩
  · rintro ⟨ns, hns, rfl⟩
    exact ⟨_, (mem_product _ _).mpr ((mem_chosen _ _ hchoices _).mpr ⟨ns, hns, rfl⟩), rfl⟩

theorem full_product (syls : List (List Char)) (h : ∀ syl ∈ syls, phonemesToKeyseq syl ≠ []) :
    (syls.map phonemesToKeyseq).flatten ∈
      (product (syls.map syllableChoices)).map List.flatten := by
  refine List.mem_map.mpr ⟨_, (mem_product _ _).mpr ?_, rfl⟩
  rw [List.forall₂_map_left_iff, List.forall₂_map_right_iff, List.forall₂_same]
  exact fun syl hsyl => (mem_syllable_choices syl _).mpr ⟨h syl hsyl, List.prefix_rfl⟩

/-- The builder's enumeration of shortened readings, with the full reading. -/
theorem mem_abbreviated (reading : List Char)
    (h : ∀ syl ∈ parseReadingSyllables reading, phonemesToKeyseq syl ≠ []) (v : Bytes) :
    let words := (parseReadingSyllables reading).map phonemesToKeyseq
    v = words.flatten ∨ v ∈ abbreviatedKeyseqs reading words.flatten ↔
      ∃ ns, Choice words ns ∧ v = chosen words ns := by
  have hne : ∀ l ∈ (parseReadingSyllables reading).map syllableChoices, l ≠ [] := by
    intro l hl hnil
    obtain ⟨syl, hsyl, rfl⟩ := List.mem_map.mp hl
    have hfull := (mem_syllable_choices syl _).mpr ⟨h syl hsyl, List.prefix_rfl⟩
    rw [hnil] at hfull
    cases hfull
  dsimp only
  rw [← mem_products, abbreviatedKeyseqs]
  by_cases hnil : (parseReadingSyllables reading).map syllableChoices = []
  · have hsylls := List.map_eq_nil_iff.mp hnil
    rw [if_pos (Or.inl hnil), hsylls]
    simp [product]
  · rw [if_neg (by
      rintro (heq | hmem)
      · exact hnil heq
      · exact hne [] hmem rfl), mem_distinct]
    constructor
    · rintro (rfl | hv)
      · exact full_product _ h
      · exact hv.1
    · intro hv
      by_cases heq : v = ((parseReadingSyllables reading).map phonemesToKeyseq).flatten
      · exact Or.inl heq
      · exact Or.inr ⟨hv, heq⟩

theorem phonemes_keyseqs (rs : List Reading) (hr : ∀ r ∈ rs, ShortReading r) :
    (rs.map phonemes).map (List.map Prod.fst) = rs.map Reading.keyseq := by
  rw [List.map_map]
  apply List.map_congr_left
  intro r hmem
  rw [Function.comp_apply, phonemes, List.map_fst_zip]
  have := (hr r hmem).pos
  omega

theorem phonemes_positions (rs : List Reading) (hr : ∀ r ∈ rs, ShortReading r) :
    (rs.map phonemes).map (List.map Prod.snd) = rs.map Reading.pos := by
  rw [List.map_map]
  apply List.map_congr_left
  intro r hmem
  rw [Function.comp_apply, phonemes, List.map_snd_zip]
  have := (hr r hmem).pos
  omega

theorem checked_hints_ok (t : CompositionSearcher) {keys : Bytes} {hints : Option Bytes}
    (h : HintsOk keys hints) : HintsOk keys (t.checkedHints hints) := by
  intro hs heq
  unfold checkedHints at heq
  split at heq
  · exact h hs heq
  · cases heq

/-- A word matches the inputs that start a sequence of one non-empty prefix of each
of its readings, with the hints on the positions they fall on. These sequences are
the reading and its abbreviations. -/
theorem composition_matches_choice (t : CompositionSearcher) (w : WordView) (rs : List Reading)
    (hw : List.Forall₂ (Carries t.hasPhonemePos) rs (t.wordReadings w))
    (hr : ∀ r ∈ rs, ShortReading r) (keys : Bytes) (hspace : 0x20 ∉ keys) (hints : Option Bytes)
    (hh : HintsOk keys hints) :
    (t.compositionMatches w keys hints = true ↔
      ∃ ns, Choice (rs.map Reading.keyseq) ns ∧ keys <+: chosen (rs.map Reading.keyseq) ns ∧
        (t.hasPhonemePos = true → HintsAgree hints (chosen (rs.map Reading.pos) ns))) ∧
    ∀ reading, (parseReadingSyllables reading).map phonemesToKeyseq = rs.map Reading.keyseq →
      ∀ v, v = (rs.map Reading.keyseq).flatten ∨
          v ∈ abbreviatedKeyseqs reading (rs.map Reading.keyseq).flatten ↔
        ∃ ns, Choice (rs.map Reading.keyseq) ns ∧ v = chosen (rs.map Reading.keyseq) ns := by
  have hkeyseq := phonemes_keyseqs rs hr
  have hpos := phonemes_positions rs hr
  constructor
  · have hchecked := t.checked_hints_ok hh
    rw [compositionMatches, recurse_covers t.hasPhonemePos rs hr _ hw keys hspace _ hchecked (by
      unfold checkedHints
      split <;> simp_all)]
    apply exists_congr
    intro ns
    rw [agrees_keys_hints _ _ _ hchecked, ← chosen_map, ← chosen_map, hkeyseq, hpos,
      ← choice_map Prod.fst, hkeyseq]
    apply and_congr_right
    intro _
    apply and_congr_right
    intro _
    unfold checkedHints
    split
    · rename_i hp
      simp [hp]
    · rename_i hp
      simp [hp, HintsAgree]
  · intro reading hreading v
    have hne : ∀ syl ∈ parseReadingSyllables reading, phonemesToKeyseq syl ≠ [] := by
      intro syl hsyl
      obtain ⟨r, hmem, heq⟩ := List.mem_map.mp (hreading ▸ List.mem_map_of_mem hsyl)
      rw [← heq]
      exact (hr r hmem).ne_nil
    have h := mem_abbreviated reading hne v
    rw [hreading] at h
    exact h

/-- The sample dictionary; its first word is 銀行. -/
def sample : CompositionSearcher :=
  (CompositionSearcher.init.loadFromMemory (buildMiedV4 sampleEntries [0x4D] [0x49])).1

def sampleWord : WordView := ⟨2, 1, 50, [2, 1], some [0, 1]⟩

def sampleReadings : List Reading :=
  [⟨[0x29, 0x2A, 0x23], [0, 1, 1], 2, 50⟩, ⟨[0x31, 0x2F, 0x23], [0, 1, 1], 2, 50⟩]

/-- ㄧㄏㄤ starts the word; its last key is hinted at the second position. -/
theorem sample_abbreviation : sample.getWord 0 = some sampleWord ∧
    sample.compositionMatches sampleWord [0x29, 0x31, 0x2F] (some [0xFF, 0, 1]) = true := by
  have hviews : sample.wordReadings sampleWord = sampleReadings.map (fun r => some r.stored) := by
    decide +kernel
  have hcarry : List.Forall₂ (Carries sample.hasPhonemePos) sampleReadings
      (sample.wordReadings sampleWord) := by
    rw [hviews, List.forall₂_map_right_iff, List.forall₂_same]
    exact fun r _ => ⟨r.stored, rfl, rfl, fun _ => rfl⟩
  have hshort : ∀ r ∈ sampleReadings, ShortReading r := by
    intro r hr
    simp only [sampleReadings, List.mem_cons, List.not_mem_nil, or_false] at hr
    rcases hr with rfl | rfl <;> exact ⟨by decide, by decide, by decide⟩
  have hhints : HintsOk [0x29, 0x31, 0x2F] (some [0xFF, 0, 1]) := by
    intro hs heq
    cases heq
    exact ⟨rfl, by simp [kPhonemeHintAny]⟩
  refine ⟨by decide +kernel, (composition_matches_choice sample sampleWord sampleReadings hcarry
    hshort [0x29, 0x31, 0x2F] (by decide) _ hhints).1.mpr ⟨[1, 2], ?_, ⟨[], by decide⟩, ?_⟩⟩
  · exact .cons (by decide) (.cons (by decide) .nil)
  · intro _ hs heq i hi hany
    cases heq
    match i, hi with
    | 0, _ => exact absurd rfl hany
    | 1, _ => rfl
    | 2, _ => rfl

end MokyaLora.CompositionSearcher
