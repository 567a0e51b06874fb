import Mathlib.Data.List.Basic
import Mathlib.Data.List.Sort
import Mathlib.Tactic.Common

/-!
# Sorted words with a common prefix

In lexicographic order the words that start with a prefix stand together: the first of
them is the first word that is not below the prefix.
-/

set_option autoImplicit false

namespace Lib.Lexicon

variable {α : Type*} [LT α]

theorem filter_drop [DecidableEq α] [Std.Irrefl (fun a b : α => a < b)] (q : List α)
    (keys : List (List α)) (lo : ℕ) (hlo : ∀ k ∈ keys.take lo, k < q) :
    (keys.drop lo).filter (fun k => decide (q <+: k)) =
      keys.filter (fun k => decide (q <+: k)) := by
  conv_rhs => rw [← List.take_append_drop lo keys, List.filter_append]
  have hnone : (keys.take lo).filter (fun k => decide (q <+: k)) = [] := by
    rw [List.filter_eq_nil_iff]
    intro k hk hpre
    exact (List.IsPrefix.le (of_decide_eq_true hpre) : q ≤ k) (hlo k hk)
  rw [hnone, List.nil_append]

variable [LE α] [Std.IsLinearOrder α] [Std.LawfulOrderLT α]

/-- Between a prefix and a word that starts with it, all words do. -/
theorem prefix_between (q a b : List α) (hqa : q ≤ a) (hab : a ≤ b) (hb : q <+: b) : q <+: a := by
  induction q generalizing a b with
  | nil => exact List.nil_prefix
  | cons x q ih =>
    obtain ⟨rest, rfl⟩ := hb
    cases a with
    | nil => exact absurd (List.nil_lt_cons x q) hqa
    | cons y a =>
      rw [List.cons_append] at hab
      have hxy := List.cons_le_cons_iff.mp hqa
      have hyx := List.cons_le_cons_iff.mp hab
      have heq : x = y := by
        rcases hxy with hxy | ⟨heq, -⟩
        · rcases hyx with hyx | ⟨heq, -⟩
          · exact absurd hyx (Std.Asymm.asymm _ _ hxy)
          · exact heq.symm
        · exact heq
      subst heq
      rw [List.cons_prefix_cons]
      refine ⟨rfl, ih a (q++rest) ?_ ?_ (List.prefix_append q rest)⟩
      · exact (hxy.resolve_left (Std.Irrefl.irrefl x)).2
      · exact (hyx.resolve_left (Std.Irrefl.irrefl x)).2

variable [DecidableEq α]

theorem take_while_prefix (q : List α) (keys : List (List α)) (hsorted : keys.Pairwise (· ≤ ·))
    (hq : ∀ k ∈ keys, q ≤ k) : keys.takeWhile (fun k => decide (q <+: k)) =
      keys.filter (fun k => decide (q <+: k)) := by
  induction keys with
  | nil => rfl
  | cons k keys ih =>
    rw [List.pairwise_cons] at hsorted
    by_cases hk : q <+: k
    · rw [List.takeWhile_cons_of_pos (by simpa using hk), List.filter_cons_of_pos (by simpa using hk),
        ih hsorted.2 (fun k' hk' => hq k' (List.mem_cons_of_mem k hk'))]
    · rw [List.takeWhile_cons_of_neg (by simpa using hk), List.filter_cons_of_neg (by simpa using hk)]
      symm
      rw [List.filter_eq_nil_iff]
      intro k' hk' hpre
      exact hk (prefix_between q k k' (hq k (List.mem_cons_self ..)) (hsorted.1 k' hk')
        (of_decide_eq_true hpre))

end Lib.Lexicon
