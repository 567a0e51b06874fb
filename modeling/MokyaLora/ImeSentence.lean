import MokyaLora.Lib.Schedule
import MokyaLora.Lib.Utf8
import MokyaLora.ImeState

/-!
# The sentence flags, commit by commit and from the whole text

A commit updates the two flags from the committed string alone; a text context sets them
from the text. The two agree except where spaces are committed by themselves, or where a
character of three bytes comes in parts.
-/

set_option autoImplicit false

namespace MokyaLora.Ime
open Lib.Fields Lib.Schedule

structure Session where
  logic : ImeLogic
  text : Bytes

namespace Session

def start : Session := ⟨.init, []⟩

def commit (x : Session) (str : Bytes) : Session := ⟨x.logic.didCommit str, x.text++str⟩

def step (x : Session) (str : Bytes) : Option Session := some (x.commit str)

def Agrees (x : Session) : Prop :=
  x.logic.enCapitalizeNext = (x.logic.setTextContext x.text).enCapitalizeNext ∧
    x.logic.enLastEndedWithSpace = (x.logic.setTextContext x.text).enLastEndedWithSpace

end Session

/-- A character that the text ends in the middle of, and the string ends with. -/
def Spans (p t s : Bytes) : Prop := p <:+ t++s ∧ ¬ p <:+ s

def fullWidthEnders : List Bytes := [utf8 '。', utf8 '？', utf8 '！']

def OnlySpaces (s : Bytes) : Prop := ∀ b ∈ s, b = space

instance (s : Bytes) : Decidable (OnlySpaces s) := List.decidableBAll _ _

/-- The commits that keep the flags in line with the text. -/
def Fits (t s : Bytes) : Prop :=
  s ≠ [] → ¬ Spans ideographicSpace t s ∧
    if s = [space] then t ≠ []
    else if s = ideographicSpace then t ≠ [] ∧ endsSentence t = false
    else if OnlySpaces s then t ≠ [] → endsSentence t = false
    else ∀ p ∈ fullWidthEnders, ¬ Spans p t (trimSpaces s)

theorem trim_concat (s : Bytes) (b : UInt8) (hb : b ≠ space) : trimSpaces (s++[b]) = s++[b] := by
  cases s with
  | nil => rfl
  | cons c cs =>
    rw [List.cons_append, trimSpaces, List.rdropWhile_concat_neg]
    rwa [beq_iff_eq]

theorem trim_concat_space (s : Bytes) (hs : s ≠ []) : trimSpaces (s++[space]) = trimSpaces s := by
  cases s with
  | nil => exact absurd rfl hs
  | cons c cs =>
    rw [List.cons_append, trimSpaces, List.rdropWhile_concat, if_pos (beq_self_eq_true space),
      trimSpaces]

theorem trim_append_spaces (t s : Bytes) (ht : t ≠ []) (hs : OnlySpaces s) :
    trimSpaces (t++s) = trimSpaces t := by
  induction s using List.reverseRecOn with
  | nil => rw [List.append_nil]
  | append_singleton s b ih =>
    have hb := hs b List.mem_concat_self
    have hts : t++s ≠ [] := fun h => ht (List.append_eq_nil_iff.mp h).1
    rw [← List.append_assoc, hb, trim_concat_space _ hts,
      ih (fun c hc => hs c (List.mem_append_left _ hc))]

theorem trim_append (t s : Bytes) (hs : ¬ OnlySpaces s) :
    trimSpaces (t++s) = t++trimSpaces s := by
  induction s using List.reverseRecOn with
  | nil => exact absurd (fun b hb => absurd hb List.not_mem_nil) hs
  | append_singleton s b ih =>
    by_cases hb : b = space
    · have hinit : ¬ ∀ c ∈ s, c = space := by
        intro hall
        apply hs
        intro c hc
        rcases List.mem_append.mp hc with hc | hc
        · exact hall c hc
        · exact (List.mem_singleton.mp hc).trans hb
      have hne : s ≠ [] := by
        rintro rfl
        exact hinit (fun b hb => absurd hb List.not_mem_nil)
      have hts : t++s ≠ [] := fun h => hne (List.append_eq_nil_iff.mp h).2
      rw [← List.append_assoc, hb, trim_concat_space _ hts, trim_concat_space _ hne, ih hinit]
    · rw [← List.append_assoc, trim_concat _ b hb, trim_concat _ b hb, List.append_assoc]

theorem trim_spaces (s : Bytes) (hne : s ≠ []) (hs : OnlySpaces s) :
    trimSpaces s = [space] := by
  cases s with
  | nil => exact absurd rfl hne
  | cons c cs =>
    rw [OnlySpaces, List.forall_mem_cons] at hs
    have htrim := trim_append_spaces [c] cs (List.cons_ne_nil c []) hs.2
    rw [← List.singleton_append, htrim, hs.1]
    rfl

theorem trim_ne_nil (s : Bytes) (hs : s ≠ []) : trimSpaces s ≠ [] := by
  cases s with
  | nil => exact absurd rfl hs
  | cons c cs => exact List.cons_ne_nil _ _

theorem ends_sentence_spaces (s : Bytes) (hne : s ≠ []) (hs : OnlySpaces s) :
    endsSentence s = false := by
  rw [endsSentence, trim_spaces s hne hs]
  decide

theorem ends_sentence_append_spaces (t s : Bytes) (ht : t ≠ []) (hs : OnlySpaces s) :
    endsSentence (t++s) = endsSentence t := by
  rw [endsSentence, trim_append_spaces t s ht hs, endsSentence]

theorem suffix_append_iff (p t s : Bytes) : p <:+ t++s ↔ p <:+ s ∨ Spans p t s := by
  constructor
  · intro h
    by_cases hs : p <:+ s
    · exact .inl hs
    · exact .inr ⟨h, hs⟩
  · rintro (h | h)
    · exact h.trans (List.suffix_append t s)
    · exact h.1

theorem getLast_append_ne (t s : Bytes) (hs : s ≠ []) : (t++s).getLast? = s.getLast? :=
  List.getLast?_append_of_ne_nil t hs

theorem spans_last (p t s : Bytes) (hs : s ≠ []) (hp : p ≠ []) (h : Spans p t s) :
    s.getLast? = p.getLast? := by
  obtain ⟨l, hl⟩ := h.1
  rw [← getLast_append_ne t s hs, ← hl, getLast_append_ne l p hp]

theorem ends_with_space_append (t s : Bytes) (hs : s ≠ []) :
    endsWithSpace (t++s) = endsWithSpace s ↔ ¬ Spans ideographicSpace t s := by
  rw [endsWithSpace, endsWithSpace, getLast_append_ne t s hs]
  by_cases h : Spans ideographicSpace t s
  · have hlast := spans_last _ t s hs (by decide) h
    rw [hlast, List.isSuffixOf_iff_suffix.mpr h.1, Bool.eq_false_iff.mpr (fun hsuf => h.2
      (List.isSuffixOf_iff_suffix.mp hsuf))]
    exact iff_of_false (by decide) (not_not.mpr h)
  · apply iff_of_true _ h
    congr 1
    rw [Bool.eq_iff_iff, List.isSuffixOf_iff_suffix, List.isSuffixOf_iff_suffix,
      suffix_append_iff, or_iff_left h]

theorem ender_eq_of_last : ∀ p ∈ fullWidthEnders, ∀ q ∈ fullWidthEnders,
    p.getLast? = q.getLast? → p = q := by
  decide

theorem ender_last : ∀ p ∈ fullWidthEnders, p ≠ [] ∧
    p.getLast?.any (fun c => c == 0x2E || c == 0x3F || c == 0x21) = false := by
  decide

def endsFullWidth (s : Bytes) : Bool := fullWidthEnders.any (fun p => p.isSuffixOf s)

theorem ends_full_width_iff (s : Bytes) :
    endsFullWidth s = true ↔ ∃ p ∈ fullWidthEnders, p <:+ s := by
  rw [endsFullWidth, List.any_eq_true]
  simp only [List.isSuffixOf_iff_suffix]

theorem ends_sentence_eq (s : Bytes) : endsSentence s =
    ((trimSpaces s).getLast?.any (fun c => c == 0x2E || c == 0x3F || c == 0x21) ||
      endsFullWidth (trimSpaces s)) := rfl

theorem ends_sentence_append (t s : Bytes) (hs : ¬ OnlySpaces s) :
    endsSentence (t++s) = endsSentence s ↔
      ∀ p ∈ fullWidthEnders, ¬ Spans p t (trimSpaces s) := by
  have hne : trimSpaces s ≠ [] := by
    apply trim_ne_nil
    rintro rfl
    exact hs (fun b hb => absurd hb List.not_mem_nil)
  rw [ends_sentence_eq, ends_sentence_eq, trim_append t s hs, getLast_append_ne _ _ hne]
  generalize trimSpaces s = u at hne
  by_cases h : ∃ p ∈ fullWidthEnders, Spans p t u
  · obtain ⟨p, hp, hspans⟩ := h
    have hlast := spans_last p t u hne (ender_last p hp).1 hspans
    have hlong : endsFullWidth (t++u) = true := (ends_full_width_iff _).mpr ⟨p, hp, hspans.1⟩
    have hshort : endsFullWidth u = false := by
      rw [Bool.eq_false_iff, ne_eq, ends_full_width_iff]
      rintro ⟨q, hq, l, hl⟩
      have hq' : u.getLast? = q.getLast? := by
        rw [← hl, getLast_append_ne l q (ender_last q hq).1]
      obtain rfl := ender_eq_of_last p hp q hq (hlast.symm.trans hq')
      exact hspans.2 ⟨l, hl⟩
    rw [hlast, (ender_last p hp).2, hlong, hshort]
    exact iff_of_false (by decide) (fun hall => hall p hp hspans)
  · have hnone : ∀ p ∈ fullWidthEnders, ¬ Spans p t u := fun p hp hspans => h ⟨p, hp, hspans⟩
    apply iff_of_true _ hnone
    congr 1
    rw [Bool.eq_iff_iff, ends_full_width_iff, ends_full_width_iff]
    constructor
    · rintro ⟨p, hp, hsuf⟩
      exact ⟨p, hp, ((suffix_append_iff p t u).mp hsuf).resolve_right (hnone p hp)⟩
    · rintro ⟨p, hp, hsuf⟩
      exact ⟨p, hp, hsuf.trans (List.suffix_append t u)⟩

namespace Session

variable (x : Session) (s : Bytes)

theorem agrees_nil : Agrees ⟨x.logic, []⟩ ↔
    x.logic.enCapitalizeNext = true ∧ x.logic.enLastEndedWithSpace = true := Iff.rfl

theorem agrees_iff (ht : x.text ≠ []) : x.Agrees ↔
    x.logic.enCapitalizeNext = endsSentence x.text ∧
      x.logic.enLastEndedWithSpace = endsWithSpace x.text := by
  rw [Agrees, ImeLogic.setTextContext, if_neg ht]

theorem commit_agrees_iff (hs : s ≠ []) : (x.commit s).Agrees ↔
    (x.logic.didCommit s).enCapitalizeNext = endsSentence (x.text++s) ∧
      endsWithSpace (x.text++s) = endsWithSpace s := by
  have hts : (x.commit s).text ≠ [] := fun h => hs (List.append_eq_nil_iff.mp h).2
  rw [agrees_iff _ hts, commit, ImeLogic.didCommit, if_neg hs]
  apply and_congr Iff.rfl
  split <;> exact eq_comm

theorem commit_space_capitalize (hs : s = [space] ∨ s = ideographicSpace) :
    (x.logic.didCommit s).enCapitalizeNext = x.logic.enCapitalizeNext := by
  rw [ImeLogic.didCommit]
  split <;> rfl

theorem commit_capitalize (hne : s ≠ []) (hs : ¬ (s = [space] ∨ s = ideographicSpace)) :
    (x.logic.didCommit s).enCapitalizeNext = endsSentence s := by
  rw [ImeLogic.didCommit, if_neg hne, if_neg hs]

theorem ideographic_last : ∀ p ∈ fullWidthEnders,
    (trimSpaces ideographicSpace).getLast? ≠ p.getLast? := by
  decide

theorem ends_sentence_ideographic (t : Bytes) : endsSentence (t++ideographicSpace) = false := by
  have hother : ¬ OnlySpaces ideographicSpace :=
    fun hall => absurd (hall 0xE3 (List.mem_cons_self ..)) (by decide)
  rw [(ends_sentence_append t ideographicSpace hother).mpr]
  · decide
  · intro p hp hspans
    exact ideographic_last p hp (spans_last p t _ (by decide) (ender_last p hp).1 hspans)

theorem agrees_space (h : x.Agrees) :
    x.logic.enCapitalizeNext = endsSentence (x.text++[space]) ↔ x.text ≠ [] := by
  by_cases ht : x.text = []
  · rw [Agrees, ht] at h
    rw [ht, h.1.trans rfl]
    exact iff_of_false (by decide : ¬ true = endsSentence [space]) (not_not.mpr rfl)
  · rw [ends_sentence_append_spaces _ [space] ht (fun b hb => List.mem_singleton.mp hb)]
    exact iff_of_true ((agrees_iff x ht).mp h).1 ht

theorem agrees_ideographic (h : x.Agrees) :
    x.logic.enCapitalizeNext = endsSentence (x.text++ideographicSpace) ↔
      x.text ≠ [] ∧ endsSentence x.text = false := by
  rw [ends_sentence_ideographic]
  by_cases ht : x.text = []
  · rw [Agrees, ht] at h
    rw [ht, h.1.trans rfl]
    exact iff_of_false Bool.true_eq_false.mp (fun hand => hand.1 rfl)
  · rw [((agrees_iff x ht).mp h).1]
    exact (and_iff_right ht).symm

theorem agrees_spaces (hne : s ≠ []) (hs : OnlySpaces s) :
    endsSentence s = endsSentence (x.text++s) ↔
      (x.text ≠ [] → endsSentence x.text = false) := by
  rw [ends_sentence_spaces s hne hs]
  by_cases ht : x.text = []
  · rw [ht, List.nil_append, ends_sentence_spaces s hne hs]
    exact iff_of_true rfl (fun h => absurd rfl h)
  · rw [ends_sentence_append_spaces _ _ ht hs]
    exact ⟨fun h _ => h.symm, fun h => (h ht).symm⟩

theorem commit_agrees (h : x.Agrees) : (x.commit s).Agrees ↔ Fits x.text s := by
  by_cases hs : s = []
  · rw [hs, commit, ImeLogic.didCommit, if_pos rfl, List.append_nil]
    exact iff_of_true h (fun hne => absurd rfl hne)
  · rw [commit_agrees_iff x s hs, ends_with_space_append _ _ hs, Fits, and_comm,
      imp_iff_right hs]
    apply and_congr Iff.rfl
    by_cases hspace : s = [space]
    · rw [if_pos hspace, commit_space_capitalize x s (.inl hspace), hspace]
      exact agrees_space x h
    · by_cases hwide : s = ideographicSpace
      · rw [if_neg hspace, if_pos hwide, commit_space_capitalize x s (.inr hwide), hwide]
        exact agrees_ideographic x h
      · rw [if_neg hspace, if_neg hwide,
          commit_capitalize x s hs (fun hor => hor.elim hspace hwide)]
        by_cases hall : OnlySpaces s
        · rw [if_pos hall]
          exact agrees_spaces x s hs hall
        · rw [if_neg hall, eq_comm]
          exact ends_sentence_append x.text s hall

/-- After every commit the flags are those of the text if and only if every commit fits. -/
theorem sentence_flags (strs : List Bytes) :
    Along step (fun x s => (x.commit s).Agrees) start strs ↔
      Along step (fun x s => Fits x.text s) start strs := by
  have hrun : ∀ x : Session, x.Agrees →
      (Along step (fun x s => (x.commit s).Agrees) x strs ↔
        Along step (fun x s => Fits x.text s) x strs) := by
    induction strs with
    | nil => exact fun _ _ => Iff.rfl
    | cons s strs ih =>
      intro x hx
      have hs := x.commit_agrees s hx
      constructor
      · rintro ⟨hagrees, hrest⟩
        exact ⟨hs.mp hagrees, fun y hy =>
          (ih y (Option.some.inj hy ▸ hagrees)).mp (hrest y hy)⟩
      · rintro ⟨hfits, hrest⟩
        have hagrees := hs.mpr hfits
        exact ⟨hagrees, fun y hy => (ih y (Option.some.inj hy ▸ hagrees)).mpr (hrest y hy)⟩
  exact hrun start ⟨rfl, rfl⟩

/-- A space in front of all text leaves the next word capitalized, which the text does
not; a wide space after a full stop does too. -/
theorem space_disagrees :
    ¬ Along step (fun x s => (x.commit s).Agrees) start [[space]] ∧
    ¬ Along step (fun x s => (x.commit s).Agrees) start [utf8 '。', ideographicSpace] := by
  constructor
  · rintro ⟨hcap, -⟩
    have hflag := hcap.1
    revert hflag
    decide
  · rintro ⟨-, h⟩
    have hflag := (h _ rfl).1.1
    revert hflag
    decide

end Session

end MokyaLora.Ime
