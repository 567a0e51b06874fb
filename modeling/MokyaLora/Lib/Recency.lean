import Mathlib.Data.List.Nodup
import Mathlib.Data.List.Induction
import Mathlib.Tactic.Common

/-!
# The most recently used keys of a history

`recent` lists a history, newest first, with only the newest element of each key. Its first
few elements are what a table of so many slots keeps that updates a key in place and gives
up the oldest one. The slots stand in no order: what orders them are stamps that fall along
the list.
-/

set_option autoImplicit false

namespace Lib.Recency

variable {α β κ : Type*} [DecidableEq κ]

def without (key : α → κ) (k : κ) (l : List α) : List α := l.filter (fun a => key a ≠ k)

def recent (key : α → κ) : List α → List α
  | [] => []
  | a::l => a::without key (key a) (recent key l)

theorem without_cons_self (key : α → κ) (a : α) (l : List α) :
    without key (key a) (a::l) = without key (key a) l :=
  List.filter_cons_of_neg (by simp)

theorem without_cons_of_ne (key : α → κ) (k : κ) (a : α) (l : List α) (h : key a ≠ k) :
    without key k (a::l) = a::without key k l :=
  List.filter_cons_of_pos (by simpa using h)

theorem without_eq_self (key : α → κ) (k : κ) (l : List α) (h : k ∉ l.map key) :
    without key k l = l := by
  apply List.filter_eq_self.mpr
  intro a ha
  have hne : key a ≠ k := fun heq => h (heq ▸ List.mem_map_of_mem ha)
  simpa using hne

theorem mem_without (key : α → κ) (k : κ) (l : List α) (a : α) :
    a ∈ without key k l ↔ a ∈ l ∧ key a ≠ k := by
  simp [without]

theorem without_nodup (key : α → κ) (k : κ) (l : List α) (h : (l.map key).Nodup) :
    ((without key k l).map key).Nodup :=
  h.sublist (List.filter_sublist.map key)

theorem key_not_mem (key : α → κ) (k : κ) (l : List α) : k ∉ (without key k l).map key := by
  intro h
  obtain ⟨a, ha, rfl⟩ := List.mem_map.mp h
  exact ((mem_without key _ l a).mp ha).2 rfl

theorem map_without (key : α → κ) (key' : β → κ) (f : α → β) (h : ∀ a, key' (f a) = key a) (k : κ)
    (l : List α) : (without key k l).map f = without key' k (l.map f) := by
  rw [without, without, List.filter_map]
  congr 1
  apply List.filter_congr
  intro a _
  rw [Function.comp_apply, h]

theorem recent_nodup (key : α → κ) (l : List α) : ((recent key l).map key).Nodup := by
  induction l with
  | nil => exact List.nodup_nil
  | cons a l ih =>
    rw [recent, List.map_cons, List.nodup_cons]
    exact ⟨key_not_mem key _ _, without_nodup key _ _ ih⟩

/-- Giving up the last of so many elements and leaving one out commute, for the one that is
left out makes room. -/
theorem take_without (key : α → κ) (k : κ) (l : List α) (h : (l.map key).Nodup) (n : ℕ) :
    (without key k l).take n = (without key k (l.take (n+1))).take n := by
  induction l generalizing n with
  | nil => rfl
  | cons a l ih =>
    rw [List.map_cons, List.nodup_cons] at h
    rw [List.take_succ_cons]
    by_cases ha : key a = k
    · subst ha
      have hfirst : key a ∉ (l.take n).map key :=
        fun hk => h.1 (((List.take_sublist n l).map key).subset hk)
      rw [without_cons_self, without_cons_self, without_eq_self key _ l h.1,
        without_eq_self key _ _ hfirst, List.take_take, Nat.min_self]
    · rw [without_cons_of_ne key k a l ha, without_cons_of_ne key k a _ ha]
      cases n with
      | zero => rfl
      | succ n => rw [List.take_succ_cons, List.take_succ_cons, ih h.2 n]

/-- A table of `n+1` elements that takes in a new one keeps the recent ones. -/
theorem recent_take (key : α → κ) (a : α) (l : List α) (n : ℕ) :
    (recent key (a::l)).take (n+1) =
      (a::without key (key a) ((recent key l).take (n+1))).take (n+1) := by
  rw [recent, List.take_succ_cons, List.take_succ_cons,
    take_without key _ _ (recent_nodup key l)]

def Falling (stamp : α → ℕ) (l : List α) : Prop := l.Pairwise (fun a b => stamp b < stamp a)

variable (stamp : α → ℕ)

theorem falling_first {a b : α} {l : List α} (h : Falling stamp (a::l)) (hb : b ∈ a::l)
    (hle : stamp a ≤ stamp b) : b = a := by
  cases hb with
  | head => rfl
  | tail _ hb =>
    have hlt := (List.pairwise_cons.mp h).1 b hb
    exact absurd hle (by omega)

theorem falling_last {a : α} {l : List α} (h : Falling stamp l) (ha : a ∈ l)
    (hmin : ∀ b ∈ l, stamp a ≤ stamp b) : l = l.dropLast++[a] := by
  have hne : l ≠ [] := List.ne_nil_of_mem ha
  have hsplit := List.dropLast_append_getLast hne
  have hlast : l.getLast hne = a := by
    rw [← hsplit] at ha
    rcases List.mem_append.mp ha with hd | hl
    · rw [← hsplit] at h
      have hlt := (List.pairwise_append.mp h).2.2 a hd _ (List.mem_singleton_self _)
      exact absurd (hmin _ (List.getLast_mem hne)) (by omega)
    · exact (List.mem_singleton.mp hl).symm
  rw [hlast] at hsplit
  exact hsplit.symm

theorem replace_known (key : α → κ) {a : α} {pre post l : List α} (hperm : (pre++a::post).Perm l)
    (hnodup : (l.map key).Nodup) : (pre++post).Perm (without key (key a) l) := by
  have hfront : (a::(pre++post)).Perm l := List.perm_middle.symm.trans hperm
  have hkeys : ((a::(pre++post)).map key).Nodup := (hfront.map key).nodup_iff.mpr hnodup
  rw [List.map_cons, List.nodup_cons] at hkeys
  have hwithout : (without key (key a) (a::(pre++post))).Perm (without key (key a) l) :=
    hfront.filter _
  rwa [without_cons_self, without_eq_self key _ _ hkeys.1] at hwithout

theorem replace_oldest {a : α} {pre post l : List α} (hperm : (pre++a::post).Perm l)
    (h : Falling stamp l) (hmin : ∀ b ∈ l, stamp a ≤ stamp b) : (pre++post).Perm l.dropLast := by
  have ha : a ∈ l := hperm.subset (by simp)
  have hlast := falling_last stamp h ha hmin
  rw [hlast] at hperm
  exact (List.perm_middle.symm.trans (hperm.trans List.perm_append_comm)).cons_inv

end Lib.Recency
