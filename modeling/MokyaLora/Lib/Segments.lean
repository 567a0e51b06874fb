import Mathlib.Data.List.Basic
import Mathlib.Order.Bounds.Basic
import Mathlib.Tactic.Common

/-!
# Fewest segments

A sequence is cut into units of a language that is closed under non-empty
prefixes; letters that begin no unit are skipped. Taking the longest unit at every
place gives a cover. It has the fewest units wherever a unit that straddles the end
of a longest one leaves at most one unit beyond it.
-/

set_option autoImplicit false

namespace Lib.Segments

variable {α : Type*} (unit : List α → Prop)

/-- The sequence is cut into this many units. -/
inductive Covers : List α → ℕ → Prop
  | nil : Covers [] 0
  | skip {k : α} {ks : List α} {n : ℕ} (hk : ∀ b, ¬ unit (k::b)) (h : Covers ks n) :
      Covers (k::ks) n
  | unit {b ks : List α} {n : ℕ} (hb : unit b) (h : Covers ks n) : Covers (b++ks) (n+1)

def Longest (b ks : List α) : Prop := unit b ∧ ∀ c, unit c → c <+: ks → c.length ≤ b.length

inductive Greedy : List α → ℕ → Prop
  | nil : Greedy [] 0
  | skip {k : α} {ks : List α} {n : ℕ} (hk : ∀ b, unit b → ¬ b <+: k::ks) (h : Greedy ks n) :
      Greedy (k::ks) n
  | unit {b ks : List α} {n : ℕ} (hb : Longest unit b (b++ks)) (h : Greedy ks n) :
      Greedy (b++ks) (n+1)

/-- What a unit leaves beyond the longest one that it straddles is no more than a unit. -/
def Apart (ks : List α) : Prop :=
  ∀ pre x y z post, ks = pre++(x++(y++(z++post))) → x ≠ [] → y ≠ [] → z ≠ [] →
    Longest unit (x++y) (x++(y++(z++post))) → unit (y++z) → ∃ n ≤ 1, Covers unit z n

/-- Units are not empty and go on being units when letters are dropped at the end. -/
structure Closed : Prop where
  nonempty : ¬ unit []
  front : ∀ b c, b ≠ [] → unit (b++c) → unit b

variable {unit}

theorem Apart.tail (pre : List α) {ks : List α} (h : Apart unit (pre++ks)) : Apart unit ks := by
  intro pre' x y z post heq
  apply h (pre++pre') x y z post
  rw [heq, List.append_assoc]

theorem Covers.append {ks ls : List α} {m n : ℕ} (hm : Covers unit ks m) (hn : Covers unit ls n) :
    Covers unit (ks++ls) (m+n) := by
  induction hm with
  | nil => rwa [List.nil_append, Nat.zero_add]
  | skip hk _ ih => exact Covers.skip hk ih
  | unit hb _ ih =>
    rw [List.append_assoc, Nat.add_right_comm]
    exact Covers.unit hb ih

theorem Greedy.covers (hc : Closed unit) {ks : List α} {n : ℕ} (h : Greedy unit ks n) : Covers unit ks n := by
  induction h with
  | nil => exact Covers.nil
  | @skip k ks n hk _ ih =>
    apply Covers.skip _ ih
    intro b hb
    have hfirst : unit [k] := hc.front [k] b (by simp) hb
    exact hk [k] hfirst (by simp)
  | unit hb _ ih => exact Covers.unit hb.1 ih

theorem Greedy.le_length (hc : Closed unit) {ks : List α} {n : ℕ} (h : Greedy unit ks n) : n ≤ ks.length := by
  induction h with
  | nil => simp
  | skip _ _ ih => rw [List.length_cons]; omega
  | @unit b ks n hb _ ih =>
    have hpos : b ≠ [] := fun hnil => hc.nonempty (hnil ▸ hb.1)
    have := List.length_pos_iff.mpr hpos
    rw [List.length_append]
    omega

theorem covers_behind (c s r : List α) (hne : c ≠ []) (hlong : Longest unit (c++s) (c++(s++r)))
    (hapart : Apart unit (c++(s++r))) {n : ℕ} (h : Covers unit (s++r) n) :
    ∃ m ≤ n, Covers unit r m := by
  generalize heq : s++r = ks at h
  induction h generalizing c s r with
  | nil =>
    obtain ⟨rfl, rfl⟩ := List.append_eq_nil_iff.mp heq
    exact ⟨0, le_refl 0, Covers.nil⟩
  | @skip k ks n hk h ih =>
    cases s with
    | nil =>
      rw [List.nil_append] at heq
      exact ⟨n, le_refl n, heq ▸ Covers.skip hk h⟩
    | cons k' s =>
      obtain ⟨rfl, rfl⟩ := List.cons_eq_cons.mp heq
      apply ih (c++[k']) s r (by simp) _ _ rfl
      · simpa using hlong
      · simpa using hapart
  | @unit d ks n hd h ih =>
    rcases List.append_eq_append_iff.mp heq with ⟨z, rfl, rfl⟩ | ⟨s', rfl, rfl⟩
    · -- the unit straddles the end of the longest one, or stops at it
      by_cases hz : z = []
      · subst hz
        exact ⟨n, Nat.le_succ n, h⟩
      · by_cases hs : s = []
        · subst hs
          exact ⟨n+1, le_refl _, Covers.unit hd h⟩
        · obtain ⟨e, he, hcover⟩ :=
            hapart [] c s z ks (by simp) hne hs hz (by simpa using hlong) hd
          exact ⟨e+n, by omega, hcover.append h⟩
    · -- it ends inside
      obtain ⟨m, hm, hr⟩ := ih (c++d) s' r (by simp [hne]) (by simpa using hlong)
        (by simpa using hapart) rfl
      exact ⟨m, by omega, hr⟩

theorem covers_rest (hc : Closed unit) (b r : List α) (hlong : Longest unit b (b++r))
    (hapart : Apart unit (b++r)) {n : ℕ} (h : Covers unit (b++r) n) :
    ∃ m, m+1 ≤ n ∧ Covers unit r m := by
  have hb : b ≠ [] := fun hnil => hc.nonempty (hnil ▸ hlong.1)
  generalize heq : b++r = ks at h
  cases h with
  | nil => exact absurd (List.append_eq_nil_iff.mp heq).1 hb
  | @skip k ks n hk h =>
    cases b with
    | nil => exact absurd rfl hb
    | cons k' b =>
      obtain ⟨rfl, rfl⟩ := List.cons_eq_cons.mp heq
      exact absurd hlong.1 (hk b)
  | @unit c ks n hunit h =>
    have hpre : c <+: b++r := ⟨ks, heq.symm⟩
    obtain ⟨s, rfl⟩ := List.prefix_of_prefix_length_le hpre (List.prefix_append b r)
      (hlong.2 c hunit hpre)
    rw [List.append_assoc, List.append_cancel_left_eq] at heq
    subst heq
    rw [List.append_assoc] at hlong hapart
    obtain ⟨m, hm, hr⟩ := covers_behind c s r (fun hnil => hc.nonempty (hnil ▸ hunit)) hlong
      hapart h
    exact ⟨m, by omega, hr⟩

theorem Greedy.least (hc : Closed unit) {ks : List α} {n : ℕ} (hg : Greedy unit ks n)
    (ha : Apart unit ks) {m : ℕ} (h : Covers unit ks m) : n ≤ m := by
  induction hg generalizing m with
  | nil => exact Nat.zero_le m
  | @skip k ks n hk _ ih =>
    generalize heq : k::ks = ls at h
    cases h with
    | nil => cases heq
    | skip _ h =>
      obtain ⟨rfl, rfl⟩ := List.cons_eq_cons.mp heq
      exact ih (Apart.tail [k] ha) h
    | @unit b ls _ hb _ => exact absurd ⟨ls, heq.symm⟩ (hk b hb)
  | @unit b ks n hb _ ih =>
    obtain ⟨e, he, hr⟩ := covers_rest hc b ks hb ha h
    have := ih (ha.tail b) hr
    omega

theorem Longest.eq {b c ks : List α} (hb : Longest unit b ks) (hc : Longest unit c ks)
    (hbk : b <+: ks) (hck : c <+: ks) : b = c :=
  (List.prefix_of_prefix_length_le hbk hck (hc.2 b hb.1 hbk)).eq_of_length
    (le_antisymm (hc.2 b hb.1 hbk) (hb.2 c hc.1 hck))

theorem Greedy.rest {b r : List α} (hlong : Longest unit b (b++r)) {n : ℕ}
    (h : Greedy unit (b++r) n) (hb : b ≠ []) : ∃ m, n = m+1 ∧ Greedy unit r m := by
  generalize heq : b++r = ks at h hlong
  cases h with
  | nil => exact absurd (List.append_eq_nil_iff.mp heq).1 hb
  | skip hk _ => exact absurd ⟨r, heq⟩ (hk b hlong.1)
  | @unit c ks n hunit h =>
    obtain rfl := hlong.eq hunit ⟨r, heq⟩ (List.prefix_append c ks)
    rw [List.append_cancel_left_eq] at heq
    exact ⟨n, rfl, heq ▸ h⟩

/-- Units that straddle a longest one without need for more are all that the greedy
cover asks for. -/
theorem least_iff_apart (hc : Closed unit) (count : List α → ℕ)
    (hg : ∀ ks, Greedy unit ks (count ks)) :
    (∀ ks, IsLeast {n | Covers unit ks n} (count ks)) ↔ ∀ ks, Apart unit ks := by
  constructor
  · intro hleast ks pre x y z post _ hx _ _ hlong hunit
    have hlong' : Longest unit (x++y) ((x++y)++z) := by
      refine ⟨hlong.1, fun c hcu hpre => hlong.2 c hcu (hpre.trans ⟨post, ?_⟩)⟩
      simp
    have htwo : Covers unit ((x++y)++z) 2 := by
      have hcover : Covers unit (x++((y++z)++[])) (0+1+1) :=
        Covers.unit (hc.front x y hx hlong.1) (Covers.unit hunit Covers.nil)
      simpa using hcover
    obtain ⟨m, hm, hz⟩ := Greedy.rest hlong' (hg _) (by simp [hx])
    have hle : count ((x++y)++z) ≤ 2 := (hleast _).2 htwo
    exact ⟨m, by omega, hz.covers hc⟩
  · intro hapart ks
    exact ⟨(hg ks).covers hc, fun m hm => (hg ks).least hc (hapart ks) hm⟩

end Lib.Segments
