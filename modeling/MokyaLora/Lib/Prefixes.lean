import Mathlib.Data.List.Forall2
import Mathlib.Tactic.Common

/-!
# Inputs spelled by prefixes of words

One non-empty prefix is chosen of every word, and the input has to agree with the
start of their concatenation. An input may end inside a prefix.
-/

set_option autoImplicit false

namespace Lib.Prefixes

variable {α β γ : Type*} (ok : α → β → Prop)

/-- The lengths choose a non-empty prefix of each word. -/
def Choice (ws : List (List α)) (ns : List ℕ) : Prop :=
  List.Forall₂ (fun w n => 1 ≤ n ∧ n ≤ w.length) ws ns

def chosen (ws : List (List α)) (ns : List ℕ) : List α :=
  (List.zipWith (fun w n => w.take n) ws ns).flatten

def Agrees : List α → List β → Prop
  | _, [] => True
  | [], _::_ => False
  | a::as, b::bs => ok a b ∧ Agrees as bs

def Covers (ws : List (List α)) (bs : List β) : Prop :=
  ∃ ns, Choice ws ns ∧ Agrees ok (chosen ws ns) bs

@[simp] theorem agrees_nil (as : List α) : Agrees ok as ([] : List β) ↔ True := by
  cases as <;> simp [Agrees]

@[simp] theorem nil_agrees (bs : List β) : Agrees ok [] bs ↔ bs = [] := by
  cases bs <;> simp [Agrees]

@[simp] theorem agrees_cons (a : α) (as : List α) (b : β) (bs : List β) :
    Agrees ok (a::as) (b::bs) ↔ ok a b ∧ Agrees ok as bs := Iff.rfl

theorem agrees_append (as as' : List α) (bs : List β) :
    Agrees ok (as++as') bs ↔
      Agrees ok as (bs.take as.length) ∧ Agrees ok as' (bs.drop as.length) := by
  induction as generalizing bs with
  | nil => simp
  | cons a as ih =>
    cases bs with
    | nil => simp
    | cons b bs => simp [ih, and_assoc]

theorem agrees_get (as : List α) (bs : List β) :
    Agrees ok as bs ↔ ∀ i, ∀ h : i < bs.length, ∃ a, as[i]? = some a ∧ ok a bs[i] := by
  induction as generalizing bs with
  | nil =>
    cases bs with
    | nil => simp
    | cons b bs => simpa using ⟨0, by simp⟩
  | cons a as ih =>
    cases bs with
    | nil => simp
    | cons b bs =>
      rw [agrees_cons, ih]
      constructor
      · rintro ⟨hb, hbs⟩ i hi
        cases i with
        | zero => exact ⟨a, rfl, hb⟩
        | succ i => exact hbs i (Nat.lt_of_succ_lt_succ hi)
      · intro h
        constructor
        · obtain ⟨a', ha, hb⟩ := h 0 (Nat.succ_pos _)
          cases ha
          exact hb
        · exact fun i hi => h (i+1) (Nat.succ_lt_succ hi)

theorem agrees_eq (as bs : List α) : Agrees (fun a b => a = b) as bs ↔ bs <+: as := by
  induction as generalizing bs with
  | nil => simp
  | cons a as ih =>
    cases bs with
    | nil => simp
    | cons b bs => rw [agrees_cons, ih, List.cons_prefix_cons, eq_comm]

@[simp] theorem choice_cons (w : List α) (ws : List (List α)) (n : ℕ) (ns : List ℕ) :
    Choice (w::ws) (n::ns) ↔ (1 ≤ n ∧ n ≤ w.length) ∧ Choice ws ns := List.forall₂_cons

@[simp] theorem chosen_nil (ns : List ℕ) : chosen ([] : List (List α)) ns = [] := by
  simp [chosen]

@[simp] theorem chosen_cons (w : List α) (ws : List (List α)) (n : ℕ) (ns : List ℕ) :
    chosen (w::ws) (n::ns) = w.take n++chosen ws ns := by
  simp [chosen]

theorem choice_map (f : α → γ) (ws : List (List α)) (ns : List ℕ) :
    Choice (ws.map (List.map f)) ns ↔ Choice ws ns := by
  simp [Choice, List.forall₂_map_left_iff]

theorem chosen_map (f : α → γ) (ws : List (List α)) (ns : List ℕ) :
    chosen (ws.map (List.map f)) ns = (chosen ws ns).map f := by
  induction ws generalizing ns with
  | nil => simp
  | cons w ws ih =>
    cases ns with
    | nil => simp [chosen]
    | cons n ns => simp [ih, List.map_take]

theorem covers_nil (ws : List (List α)) (h : ∀ w ∈ ws, w ≠ []) : Covers ok ws ([] : List β) := by
  refine ⟨ws.map List.length, ?_, by simp⟩
  induction ws with
  | nil => exact List.Forall₂.nil
  | cons w ws ih =>
    rw [List.map_cons, choice_cons]
    exact ⟨⟨List.length_pos_iff.mpr (h w (by simp)), Nat.le_refl _⟩, ih (fun v hv => h v (by simp [hv]))⟩

theorem nil_covers (bs : List β) : Covers ok [] bs ↔ bs = [] := by
  constructor
  · rintro ⟨ns, -, h⟩
    simpa using h
  · rintro rfl
    exact covers_nil ok [] (by simp)

/-- The first word takes some of the input and the other words take the rest. -/
theorem covers_cons (w : List α) (ws : List (List α)) (bs : List β) :
    Covers ok (w::ws) bs ↔ ∃ n, (1 ≤ n ∧ n ≤ w.length) ∧
      Agrees ok (w.take n) (bs.take n) ∧ Covers ok ws (bs.drop n) := by
  constructor
  · rintro ⟨ns, hchoice, h⟩
    cases ns with
    | nil => cases hchoice
    | cons n ns =>
      obtain ⟨hn, hns⟩ := (choice_cons w ws n ns).mp hchoice
      rw [chosen_cons, agrees_append, List.length_take, Nat.min_eq_left hn.2] at h
      exact ⟨n, hn, h.1, ns, hns, h.2⟩
  · rintro ⟨n, hn, hfirst, ns, hns, h⟩
    refine ⟨n::ns, (choice_cons w ws n ns).mpr ⟨hn, hns⟩, ?_⟩
    rw [chosen_cons, agrees_append, List.length_take, Nat.min_eq_left hn.2]
    exact ⟨hfirst, h⟩

theorem mem_chosen (ws : List (List α)) (choices : List (List (List α)))
    (h : List.Forall₂ (fun w l => ∀ v, v ∈ l ↔ v ≠ [] ∧ v <+: w) ws choices) (vs : List (List α)) :
    List.Forall₂ (fun v l => v ∈ l) vs choices ↔
      ∃ ns, Choice ws ns ∧ vs = List.zipWith (fun w n => w.take n) ws ns := by
  induction h generalizing vs with
  | nil =>
    constructor
    · rintro ⟨⟩
      exact ⟨[], List.Forall₂.nil, rfl⟩
    · rintro ⟨ns, -, rfl⟩
      exact List.Forall₂.nil
  | @cons w l ws ls hl _ ih =>
    constructor
    · intro hvs
      cases vs with
      | nil => cases hvs
      | cons v vs =>
        obtain ⟨hv, hrest⟩ := List.forall₂_cons.mp hvs
        obtain ⟨hne, hpre⟩ := (hl v).mp hv
        obtain ⟨ns, hns, rfl⟩ := (ih vs).mp hrest
        refine ⟨v.length::ns, (choice_cons w ws _ _).mpr ⟨⟨?_, hpre.length_le⟩, hns⟩, ?_⟩
        · exact List.length_pos_iff.mpr hne
        · rw [List.zipWith_cons_cons, ← List.prefix_iff_eq_take.mp hpre]
    · rintro ⟨ns, hchoice, rfl⟩
      cases ns with
      | nil => cases hchoice
      | cons n ns =>
        obtain ⟨hn, hns⟩ := (choice_cons w ws n ns).mp hchoice
        rw [List.zipWith_cons_cons, List.forall₂_cons]
        refine ⟨(hl _).mpr ⟨?_, ⟨w.drop n, List.take_append_drop n w⟩⟩, (ih _).mpr ⟨ns, hns, rfl⟩⟩
        rw [← List.length_pos_iff, List.length_take]
        omega

end Lib.Prefixes
