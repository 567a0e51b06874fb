import MokyaLora.SyllableCount
import MokyaLora.Lib.Segments
import Mathlib.Data.Nat.Digits.Lemmas

/-!
# The fewest syllables for the keys

A prefix of up to four keys is packed into one number with its length, so the table
holds the prefixes of the readings and nothing else. The count takes the longest of
them at every key.
-/

set_option autoImplicit false

namespace MokyaLora.CompositionSearcher
open Lib.Fields Lib.Segments GenDict

theorem pack_fold (kb : Bytes) (acc i : ℕ) :
    (kb.zipIdx i).foldl (fun v p => v ||| (p.1.toNat <<< (8*p.2))) acc =
      acc ||| (Nat.ofDigits 256 (kb.map UInt8.toNat) <<< (8*i)) := by
  induction kb generalizing acc i with
  | nil => simp
  | cons k ks ih =>
    have hk : k.toNat < 2^8 := k.toNat_lt
    have hdigits : Nat.ofDigits 256 ((k::ks).map UInt8.toNat) =
        k.toNat ||| (Nat.ofDigits 256 (ks.map UInt8.toNat) <<< 8) := by
      rw [Nat.or_comm, ← Nat.shiftLeft_add_eq_or_of_lt hk, List.map_cons, Nat.ofDigits_cons,
        Nat.shiftLeft_eq]
      omega
    rw [List.zipIdx_cons, List.foldl_cons, ih, hdigits, Nat.shiftLeft_or_distrib,
      ← Nat.shiftLeft_add, Nat.or_assoc, show 8*(i+1) = 8+8*i by omega]

theorem digits_lt (kb : Bytes) (h : kb.length ≤ 4) :
    Nat.ofDigits 256 (kb.map UInt8.toNat) < 4294967296 := by
  have hlt := Nat.ofDigits_lt_base_pow_length (b := 256) (l := kb.map UInt8.toNat) (by omega)
    (by
      intro x hx
      obtain ⟨k, -, rfl⟩ := List.mem_map.mp hx
      exact k.toNat_lt)
  rw [List.length_map] at hlt
  exact lt_of_lt_of_le hlt (Nat.pow_le_pow_right (by omega) h)

theorem pack_keys_eq (kb : Bytes) (h : kb.length ≤ 4) :
    packKeys kb = kb.length*4294967296+Nat.ofDigits 256 (kb.map UInt8.toNat) := by
  have hlt : Nat.ofDigits 256 (kb.map UInt8.toNat) < 2^32 := digits_lt kb h
  rw [packKeys, pack_fold, Nat.mul_zero, Nat.shiftLeft_zero,
    ← Nat.shiftLeft_add_eq_or_of_lt hlt, Nat.shiftLeft_eq]

/-- The number tells the keys and how many they are. -/
theorem pack_keys_injective (a b : Bytes) (ha : a.length ≤ 4) (hb : b.length ≤ 4)
    (h : packKeys a = packKeys b) : a = b := by
  rw [pack_keys_eq a ha, pack_keys_eq b hb] at h
  have := digits_lt a ha
  have := digits_lt b hb
  have hlen : a.length = b.length := by omega
  have hinj : Function.Injective (List.map UInt8.toNat) :=
    List.map_injective_iff.mpr (fun k k' => UInt8.toNat_inj.mp)
  apply hinj
  apply Nat.ofDigits_inj_of_len_eq (b := 256) (by omega) (by simp [hlen])
  · intro x hx
    obtain ⟨k, -, rfl⟩ := List.mem_map.mp hx
    exact k.toNat_lt
  · intro x hx
    obtain ⟨k, -, rfl⟩ := List.mem_map.mp hx
    exact k.toNat_lt
  · omega

theorem pack_prefix_eq (b : Bytes) (h : b.length ≤ 4) : packPrefix b = packKeys b := by
  rw [packPrefix, packKeys, List.take_of_length_le h]

theorem mem_key_prefix_set (kb b : Bytes) (hb : b ≠ []) (h : b.length ≤ 4) :
    packKeys b ∈ keyPrefixSet kb ↔ b <+: kb := by
  constructor
  · intro hmem
    obtain ⟨n, hn, heq⟩ := List.mem_map.mp hmem
    have := List.mem_range.mp hn
    have htake : (kb.take (n+1)).length ≤ 4 := by
      rw [List.length_take]
      omega
    exact pack_keys_injective _ b htake h heq ▸ List.take_prefix _ kb
  · intro hpre
    have := hpre.length_le
    have := List.length_pos_iff.mpr hb
    apply List.mem_map.mpr ⟨b.length-1, List.mem_range.mpr (by omega), _⟩
    rw [Nat.sub_add_cancel (by omega), ← List.prefix_iff_eq_take.mp hpre]

/-- Up to four keys that a syllable of a reading starts with. -/
def ReadingUnit (raw : List RawEntry) (b : Bytes) : Prop :=
  b ≠ [] ∧ b.length ≤ 4 ∧
    ∃ e ∈ raw, ∃ syl ∈ parseReadingSyllables e.reading, b <+: phonemesToKeyseq syl

theorem reading_unit_closed (raw : List RawEntry) : Closed (ReadingUnit raw) where
  nonempty h := h.1 rfl
  front b c hb h := by
    obtain ⟨-, hlen, e, he, syl, hsyl, hpre⟩ := h
    rw [List.length_append] at hlen
    exact ⟨hb, by omega, e, he, syl, hsyl, (List.prefix_append b c).trans hpre⟩

theorem mem_prefix_set (raw : List RawEntry) (b : Bytes) (hb : b ≠ []) (h : b.length ≤ 4) :
    packKeys b ∈ buildSyllablePrefixSet raw ↔ ReadingUnit raw b := by
  rw [buildSyllablePrefixSet, mem_sorted_set]
  simp only [List.mem_flatMap, mem_key_prefix_set _ b hb h]
  exact ⟨fun hmem => ⟨hb, h, hmem⟩, fun hunit => hunit.2.2⟩

theorem has_prefix_iff (raw : List RawEntry) (t : CompositionSearcher)
    (ht : t.prefixTable = buildSyllablePrefixSet raw) (b : Bytes) :
    t.hasReadingPrefix b = true ↔ ReadingUnit raw b := by
  have hsorted : t.prefixTable.Pairwise (fun a b => a ≤ b) :=
    ht ▸ List.pairwise_insertionSort _ _
  by_cases hb : b ≠ [] ∧ b.length ≤ 4
  · rw [has_reading_iff t hsorted b hb, pack_prefix_eq b hb.2, ht, mem_prefix_set raw b hb.1 hb.2]
  · have hno : t.hasReadingPrefix b = false := by
      rw [hasReadingPrefix, if_pos]
      by_cases hnil : b = []
      · exact Or.inr (Or.inl hnil)
      · exact Or.inr (Or.inr (by_contra fun hle => hb ⟨hnil, by omega⟩))
    rw [hno]
    exact iff_of_false Bool.false_ne_true (fun h => hb ⟨h.1, h.2.1⟩)

theorem longest_prefix_spec (t : CompositionSearcher) (keys : Bytes) (len : ℕ) :
    t.longestPrefix keys len ≤ len ∧
    (t.longestPrefix keys len ≠ 0 →
      t.hasReadingPrefix (keys.take (t.longestPrefix keys len)) = true) ∧
    ∀ l, t.longestPrefix keys len < l → l ≤ len → t.hasReadingPrefix (keys.take l) = false := by
  induction len with
  | zero => exact ⟨le_refl 0, fun h => absurd rfl h, fun l hl hle => absurd hle (by omega)⟩
  | succ len ih =>
    rw [longestPrefix]
    split
    · rename_i hhas
      exact ⟨le_refl _, fun _ => hhas, fun l hl hle => absurd hle (by omega)⟩
    · rename_i hno
      refine ⟨by omega, ih.2.1, fun l hl hle => ?_⟩
      rcases Nat.lt_or_eq_of_le hle with hlt | rfl
      · exact ih.2.2 l hl (by omega)
      · exact Bool.eq_false_iff.mpr hno

theorem unit_le_longest (raw : List RawEntry) (t : CompositionSearcher)
    (ht : t.prefixTable = buildSyllablePrefixSet raw) (keys b : Bytes) (hb : ReadingUnit raw b)
    (hpre : b <+: keys) : b.length ≤ t.longestPrefix keys (min keys.length 4) := by
  by_contra hlt
  have hlen := hpre.length_le
  have hno := (t.longest_prefix_spec keys (min keys.length 4)).2.2 b.length (by omega)
    (le_min hlen hb.2.1)
  rw [← List.prefix_iff_eq_take.mp hpre, (has_prefix_iff raw t ht b).mpr hb] at hno
  cases hno

/-- The loop cuts off the longest unit at every key. -/
theorem count_greedy (raw : List RawEntry) (t : CompositionSearcher)
    (ht : t.prefixTable = buildSyllablePrefixSet raw) (n : ℕ) (keys : Bytes)
    (hn : keys.length ≤ n) : Greedy (ReadingUnit raw) keys (t.countFrom n keys) := by
  induction n generalizing keys with
  | zero =>
    obtain rfl := List.length_eq_zero_iff.mp (Nat.le_zero.mp hn)
    exact Greedy.nil
  | succ n ih =>
    cases keys with
    | nil => exact Greedy.nil
    | cons k ks =>
      have hlongest := fun b => unit_le_longest raw t ht (k::ks) b
      obtain ⟨hle, hhas, -⟩ := t.longest_prefix_spec (k::ks) (min (k::ks).length 4)
      rw [countFrom, if_neg (List.cons_ne_nil k ks)]
      dsimp only
      generalize t.longestPrefix (k::ks) (min (k::ks).length 4) = best at *
      have hlen : best ≤ (k::ks).length := le_trans hle (Nat.min_le_left _ _)
      rw [List.length_cons] at hn hlen
      split
      · rename_i hzero
        subst hzero
        apply Greedy.skip _ (ih ks (by omega))
        intro b hb hpre
        exact hb.1 (List.length_eq_zero_iff.mp (Nat.le_zero.mp (hlongest b hb hpre)))
      · rename_i hpos
        have hunit := (has_prefix_iff raw t ht _).mp (hhas hpos)
        have htake : ((k::ks).take best).length = best :=
          List.length_take_of_le (by rw [List.length_cons]; omega)
        have hcut : Longest (ReadingUnit raw) ((k::ks).take best)
            ((k::ks).take best++(k::ks).drop best) := by
          rw [List.take_append_drop]
          exact ⟨hunit, fun c hc hpre => htake.symm ▸ hlongest c hc hpre⟩
        have hrest := ih ((k::ks).drop best) (by
          rw [List.length_drop, List.length_cons]
          omega)
        have := Greedy.unit hcut hrest
        rwa [List.take_append_drop, Nat.add_comm] at this

/-- Never more than the keys; the fewest where what a reading prefix leaves beyond the
longest one is no more than a prefix, and for all keys only if it is so for all keys. -/
theorem count_syllables_iff (raw : List RawEntry) (t : CompositionSearcher)
    (ht : t.prefixTable = buildSyllablePrefixSet raw) :
    (∀ keys, t.countSyllables keys ≤ keys.length) ∧
    (∀ keys, Apart (ReadingUnit raw) keys →
      IsLeast {n | Covers (ReadingUnit raw) keys n} (t.countSyllables keys)) ∧
    ((∀ keys, IsLeast {n | Covers (ReadingUnit raw) keys n} (t.countSyllables keys)) ↔
      ∀ keys, Apart (ReadingUnit raw) keys) := by
  have hclosed := reading_unit_closed raw
  have hgreedy : ∀ keys, Greedy (ReadingUnit raw) keys (t.countSyllables keys) :=
    fun keys => count_greedy raw t ht keys.length keys (le_refl _)
  refine ⟨fun keys => (hgreedy keys).le_length hclosed, fun keys hapart => ?_,
    least_iff_apart hclosed _ hgreedy⟩
  exact ⟨(hgreedy keys).covers hclosed, fun m hm => (hgreedy keys).least hclosed hapart hm⟩

def straddling : List RawEntry :=
  [⟨['逼'], 1, ['ㄅ', 'ㄧ']⟩, ⟨['搖'], 1, ['ㄧ', 'ㄠ', 'ˊ']⟩, ⟨['凹'], 1, ['ㄠ']⟩, ⟨['之'], 1, ['ㄓ']⟩]

def straddlingSearcher : CompositionSearcher :=
  { init with prefixTable := buildSyllablePrefixSet straddling }

/-- Of three keys the prefix ㄧㄠ straddles the end of ㄅㄧ and leaves the unit ㄠ. -/
theorem straddling_apart :
    Apart (ReadingUnit straddling) (phonemesToKeyseq ['ㄅ', 'ㄧ', 'ㄠ']) := by
  have hunit : ReadingUnit straddling (phonemesToKeyseq ['ㄠ']) :=
    (has_prefix_iff straddling straddlingSearcher rfl _).mp (by decide +kernel)
  intro pre x y z post heq hx hy hz _ _
  have hx' := List.length_pos_iff.mpr hx
  have hy' := List.length_pos_iff.mpr hy
  have hz' := List.length_pos_iff.mpr hz
  have hlen := congrArg List.length heq
  simp only [List.length_append] at hlen
  have hthree : (phonemesToKeyseq ['ㄅ', 'ㄧ', 'ㄠ']).length = 3 := by decide
  obtain rfl : pre = [] := List.length_eq_zero_iff.mp (by omega)
  obtain rfl : post = [] := List.length_eq_zero_iff.mp (by omega)
  have hrest : z = phonemesToKeyseq ['ㄠ'] := by
    have hdrop := congrArg (List.drop 2) heq
    rwa [List.nil_append, List.append_nil, ← List.append_assoc,
      List.drop_left' (by rw [List.length_append]; omega), eq_comm] at hdrop
  exact ⟨1, le_refl 1, hrest ▸ Covers.unit hunit Covers.nil⟩

theorem count_syllables_straddling :
    Longest (ReadingUnit straddling) (phonemesToKeyseq ['ㄅ', 'ㄧ'])
      (phonemesToKeyseq ['ㄅ', 'ㄧ', 'ㄠ']) ∧
    ReadingUnit straddling (phonemesToKeyseq ['ㄧ', 'ㄠ']) ∧
    straddlingSearcher.countSyllables (phonemesToKeyseq ['ㄅ', 'ㄧ', 'ㄠ']) = 2 ∧
    IsLeast {n | Covers (ReadingUnit straddling) (phonemesToKeyseq ['ㄅ', 'ㄧ', 'ㄠ']) n}
      (straddlingSearcher.countSyllables (phonemesToKeyseq ['ㄅ', 'ㄧ', 'ㄠ'])) := by
  have hhas := has_prefix_iff straddling straddlingSearcher rfl
  refine ⟨⟨(hhas _).mp (by decide +kernel), fun c hc hpre => ?_⟩, (hhas _).mp (by decide +kernel),
    by decide +kernel, (count_syllables_iff straddling straddlingSearcher rfl).2.1 _
      straddling_apart⟩
  by_contra hlt
  have hwhole : c = phonemesToKeyseq ['ㄅ', 'ㄧ', 'ㄠ'] := hpre.eq_of_length_le (by
    have htwo : (phonemesToKeyseq ['ㄅ', 'ㄧ']).length = 2 := by decide
    have hthree : (phonemesToKeyseq ['ㄅ', 'ㄧ', 'ㄠ']).length = 3 := by decide
    omega)
  have hno : straddlingSearcher.hasReadingPrefix (phonemesToKeyseq ['ㄅ', 'ㄧ', 'ㄠ']) = false := by
    decide +kernel
  rw [hwhole, ← hhas, hno] at hc
  exact Bool.false_ne_true hc

/-- ㄅㄧㄠˊ is ㄅ and ㄧㄠˊ; the longest first are ㄅㄧ, ㄠ and ㄓ. -/
theorem three_for_two :
    straddlingSearcher.prefixTable = buildSyllablePrefixSet straddling ∧
    straddlingSearcher.countSyllables (phonemesToKeyseq ['ㄅ', 'ㄧ', 'ㄠ', 'ˊ']) = 3 ∧
    Covers (ReadingUnit straddling) (phonemesToKeyseq ['ㄅ', 'ㄧ', 'ㄠ', 'ˊ']) 2 ∧
    ¬ IsLeast {n | Covers (ReadingUnit straddling) (phonemesToKeyseq ['ㄅ', 'ㄧ', 'ㄠ', 'ˊ']) n}
      (straddlingSearcher.countSyllables (phonemesToKeyseq ['ㄅ', 'ㄧ', 'ㄠ', 'ˊ'])) := by
  have hthree : straddlingSearcher.countSyllables (phonemesToKeyseq ['ㄅ', 'ㄧ', 'ㄠ', 'ˊ']) = 3 := by
    decide +kernel
  have hfirst : ReadingUnit straddling (phonemesToKeyseq ['ㄅ']) := by
    refine ⟨by decide, by decide, _, List.mem_cons_self, ['ㄅ', 'ㄧ'], by decide, by decide⟩
  have hlast : ReadingUnit straddling (phonemesToKeyseq ['ㄧ', 'ㄠ', 'ˊ']) := by
    refine ⟨by decide, by decide, _, List.mem_cons_of_mem _ List.mem_cons_self,
      ['ㄧ', 'ㄠ', 'ˊ'], by decide, by decide⟩
  have htwo : Covers (ReadingUnit straddling) (phonemesToKeyseq ['ㄅ', 'ㄧ', 'ㄠ', 'ˊ']) 2 :=
    Covers.unit hfirst (Covers.unit hlast Covers.nil)
  refine ⟨rfl, hthree, htwo, fun hleast => ?_⟩
  have hle := hleast.2 htwo
  rw [hthree] at hle
  omega

end MokyaLora.CompositionSearcher
