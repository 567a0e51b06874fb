import Mathlib.Algebra.Order.Group.Nat
import Mathlib.Data.List.Basic
import Mathlib.Tactic.Common

/-!
# Pieces put into a bounded buffer

A buffer takes one piece after the other and leaves out those that would fill it. A
piece that is left out ends nothing: a shorter one behind it may still be put in, and
then the buffer is no longer a front of the pieces.
-/

set_option autoImplicit false

namespace Lib.Filling

variable {α : Type*} (cap : ℕ)

def put (buf piece : List α) : List α := if cap ≤ buf.length+piece.length then buf else buf++piece

def fill (buf : List α) (pieces : List (List α)) : List α := pieces.foldl (put cap) buf

/-- The buffer holds the first `k` pieces, and the next one does not fit. -/
structure CutAt (pieces : List (List α)) (buf : List α) (k : ℕ) : Prop where
  cut : buf = (pieces.take k).flatten
  full : ∀ p, pieces[k]? = some p → cap ≤ buf.length+p.length

/-- A piece has room where one before it has none. -/
def Overtakes (pieces : List (List α)) : Prop :=
  ∃ pre p post, pieces = pre++p::post ∧ pre.flatten.length < cap ∧
    cap ≤ pre.flatten.length+p.length ∧ ∃ q ∈ post, pre.flatten.length+q.length < cap

@[simp] theorem fill_nil (buf : List α) : fill cap buf [] = buf := rfl

@[simp] theorem fill_cons (buf piece : List α) (pieces : List (List α)) :
    fill cap buf (piece::pieces) = fill cap (put cap buf piece) pieces := rfl

theorem fill_append (buf : List α) (as bs : List (List α)) :
    fill cap buf (as++bs) = fill cap (fill cap buf as) bs := List.foldl_append

theorem prefix_put (buf piece : List α) : buf <+: put cap buf piece := by
  unfold put
  split
  · exact List.prefix_rfl
  · exact List.prefix_append buf piece

theorem prefix_fill (buf : List α) (pieces : List (List α)) : buf <+: fill cap buf pieces := by
  induction pieces generalizing buf with
  | nil => exact List.prefix_rfl
  | cons p pieces ih => exact (prefix_put cap buf p).trans (ih _)

theorem fill_length_le (buf : List α) (pieces : List (List α)) (h : buf.length ≤ cap) :
    (fill cap buf pieces).length ≤ cap := by
  induction pieces generalizing buf with
  | nil => exact h
  | cons p pieces ih =>
    apply ih
    unfold put
    split
    · exact h
    · rw [List.length_append]
      omega

theorem fill_room (buf : List α) (pieces : List (List α))
    (h : buf.length+pieces.flatten.length < cap) : fill cap buf pieces = buf++pieces.flatten := by
  induction pieces generalizing buf with
  | nil => simp
  | cons p pieces ih =>
    rw [List.flatten_cons, List.length_append] at h
    rw [fill_cons, put, if_neg (by omega), ih _ (by rw [List.length_append]; omega),
      List.flatten_cons, List.append_assoc]

theorem fill_full (buf : List α) (pieces : List (List α))
    (h : ∀ p ∈ pieces, cap ≤ buf.length+p.length) : fill cap buf pieces = buf := by
  induction pieces with
  | nil => rfl
  | cons p pieces ih =>
    rw [fill_cons, put, if_pos (h p (by simp))]
    exact ih (fun q hq => h q (by simp [hq]))

theorem first_full (buf : List α) (pieces : List (List α)) (hbuf : buf.length < cap) :
    buf.length+pieces.flatten.length < cap ∨ ∃ pre p post, pieces = pre++p::post ∧
      buf.length+pre.flatten.length < cap ∧ cap ≤ buf.length+pre.flatten.length+p.length := by
  induction pieces generalizing buf with
  | nil => exact .inl (by simpa using hbuf)
  | cons p pieces ih =>
    by_cases hp : buf.length+p.length < cap
    · rcases ih (buf++p) (by rwa [List.length_append]) with hall | ⟨pre, q, post, rfl, hpre, hq⟩
      · left
        rw [List.length_append] at hall
        rw [List.flatten_cons, List.length_append]
        omega
      · refine .inr ⟨p::pre, q, post, rfl, ?_, ?_⟩
        · rw [List.length_append] at hpre
          rw [List.flatten_cons, List.length_append]
          omega
        · rw [List.length_append] at hq
          rw [List.flatten_cons, List.length_append]
          omega
    · exact .inr ⟨[], p, pieces, rfl, by simpa using hbuf, by simpa using hp⟩

theorem flatten_front {as bs : List (List α)} (h : as <+: bs) : as.flatten <+: bs.flatten := by
  obtain ⟨rest, rfl⟩ := h
  rw [List.flatten_append]
  exact List.prefix_append _ _

theorem CutAt.front {cap : ℕ} {pieces : List (List α)} {buf : List α} {k : ℕ}
    (h : CutAt cap pieces buf k) : buf <+: pieces.flatten := by
  rw [h.cut]
  exact flatten_front (List.take_prefix k pieces)

/-- Where no piece overtakes another the buffer is a front of the pieces, and so it is
after each front of them. -/
theorem fill_cut (pieces : List (List α)) (hcap : 0 < cap) (h : ¬ Overtakes cap pieces) :
    ∃ k, CutAt cap pieces (fill cap [] pieces) k ∧
      ∀ front, front <+: pieces → fill cap [] front = (front.take k).flatten := by
  have hfits : ∀ front : List (List α), front.flatten.length < cap →
      fill cap [] front = front.flatten :=
    fun front hfront => fill_room cap [] front (by simpa using hfront)
  rcases first_full cap [] pieces hcap with hall | ⟨pre, p, post, rfl, hpre, hp⟩
  · rw [List.length_nil, Nat.zero_add] at hall
    refine ⟨pieces.length, ⟨by rw [hfits _ hall, List.take_length], by simp⟩, ?_⟩
    intro front hfront
    rw [hfits front (lt_of_le_of_lt (flatten_front hfront).length_le hall),
      List.take_of_length_le hfront.length_le]
  · rw [List.length_nil, Nat.zero_add] at hpre hp
    have hlate : ∀ q ∈ p::post, cap ≤ pre.flatten.length+q.length := by
      intro q hq
      rcases List.mem_cons.mp hq with rfl | hq
      · exact hp
      · exact not_lt.mp (fun hlt => h ⟨pre, p, post, rfl, hpre, hp, q, hq, hlt⟩)
    have hfront : ∀ front, front <+: pre++p::post →
        fill cap [] front = (front.take pre.length).flatten := by
      intro front hfront
      rcases List.prefix_or_prefix_of_prefix hfront (List.prefix_append pre (p::post)) with
        hshort | ⟨rest, rfl⟩
      · rw [hfits front (lt_of_le_of_lt (flatten_front hshort).length_le hpre),
          List.take_of_length_le hshort.length_le]
      · have hrest : rest <+: p::post := (List.prefix_append_right_inj pre).mp hfront
        rw [fill_append, hfits pre hpre, List.take_left]
        exact fill_full cap _ rest (fun q hq => hlate q (hrest.subset hq))
    refine ⟨pre.length, ⟨hfront _ List.prefix_rfl, fun q hq => ?_⟩, hfront⟩
    rw [List.getElem?_append_right (le_refl _), Nat.sub_self, List.getElem?_cons_zero] at hq
    obtain rfl := Option.some.inj hq
    rwa [hfront _ List.prefix_rfl, List.take_left]

theorem room_used (buf : List α) (pieces : List (List α))
    (h : ∃ q ∈ pieces, buf.length+q.length < cap) :
    ∃ q ∈ pieces, buf.length+q.length < cap ∧ buf++q <+: fill cap buf pieces := by
  induction pieces with
  | nil => simp at h
  | cons p pieces ih =>
    by_cases hp : buf.length+p.length < cap
    · refine ⟨p, by simp, hp, ?_⟩
      rw [fill_cons, put, if_neg (by omega)]
      exact prefix_fill cap (buf++p) pieces
    · obtain ⟨q, hq, hroom⟩ := h
      have hmem : q ∈ pieces := (List.mem_cons.mp hq).resolve_left (by rintro rfl; exact hp hroom)
      obtain ⟨r, hr, hfit, hput⟩ := ih ⟨q, hmem, hroom⟩
      refine ⟨r, by simp [hr], hfit, ?_⟩
      rwa [fill_cons, put, if_pos (by omega)]

theorem overtaken_not_front (pieces : List (List α))
    (hfree : ∀ p ∈ pieces, ∀ q ∈ pieces, q.length < p.length → ¬ q <+: p)
    (h : Overtakes cap pieces) : ¬ fill cap [] pieces <+: pieces.flatten := by
  obtain ⟨pre, p, post, rfl, hpre, hp, hroom⟩ := h
  intro hfront
  have hput : put cap pre.flatten p = pre.flatten := by rw [put, if_pos hp]
  have hstart : fill cap [] pre = pre.flatten := fill_room cap [] pre (by simpa using hpre)
  obtain ⟨q, hq, hfit, hused⟩ := room_used cap pre.flatten post hroom
  rw [fill_append, hstart, fill_cons, hput] at hfront
  have hall := hused.trans hfront
  rw [List.flatten_append, List.flatten_cons, List.prefix_append_right_inj] at hall
  have hlen : q.length < p.length := by omega
  exact hfree p (by simp) q (by simp [hq]) hlen
    (List.prefix_of_prefix_length_le hall (List.prefix_append p _) (Nat.le_of_lt hlen))

/-- Between pieces whose lengths differ by one at most, only a piece that ends with the
last cell is overtaken. -/
theorem overtakes_iff (pieces : List (List α))
    (h : ∀ p ∈ pieces, ∀ q ∈ pieces, p.length ≤ q.length+1) :
    Overtakes cap pieces ↔ ∃ pre p post, pieces = pre++p::post ∧
      pre.flatten.length+p.length = cap ∧ ∃ q ∈ post, q.length < p.length := by
  constructor
  · rintro ⟨pre, p, post, rfl, -, hp, q, hq, hroom⟩
    have hle := h p (by simp) q (by simp [hq])
    exact ⟨pre, p, post, rfl, by omega, q, hq, by omega⟩
  · rintro ⟨pre, p, post, heq, hend, q, hq, hlt⟩
    exact ⟨pre, p, post, heq, by omega, le_of_eq hend.symm, q, hq, by omega⟩

end Lib.Filling
