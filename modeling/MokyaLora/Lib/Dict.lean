import Mathlib.Data.List.Basic
import Mathlib.Data.List.Induction
import Mathlib.Data.List.MinMax
import Mathlib.Data.List.Nodup
import Mathlib.Tactic.Common

/-!
# Dictionaries that keep the order of insertion

Setting a key that is there replaces its value in place; a new key goes to the
end.
-/

set_option autoImplicit false

namespace Lib.Dict

variable {κ ν : Type*} [DecidableEq κ]

def keys (d : List (κ × ν)) : List κ := d.map Prod.fst

def get? (d : List (κ × ν)) (k : κ) : Option ν := (d.find? (fun p => decide (p.1 = k))).map Prod.snd

def set (d : List (κ × ν)) (k : κ) (v : ν) : List (κ × ν) :=
  if k ∈ keys d then d.map (fun p => if p.1 = k then (k, v) else p) else d++[(k, v)]

theorem keys_set (d : List (κ × ν)) (k : κ) (v : ν) :
    keys (set d k v) = if k ∈ keys d then keys d else keys d++[k] := by
  unfold set
  split
  · simp only [keys, List.map_map]
    apply List.map_congr_left
    intro p _
    by_cases hp : p.1 = k <;> simp [hp]
  · simp [keys]

theorem nodup_set (d : List (κ × ν)) (k : κ) (v : ν) (h : (keys d).Nodup) :
    (keys (set d k v)).Nodup := by
  rw [keys_set]
  split
  · exact h
  · rename_i hk
    apply List.Nodup.append h (List.nodup_singleton k)
    intro a ha hb
    rw [List.mem_singleton.mp hb] at ha
    exact hk ha

theorem mem_set (d : List (κ × ν)) (k : κ) (v : ν) (p : κ × ν) (h : p ∈ set d k v) :
    p = (k, v) ∨ p ∈ d := by
  unfold set at h
  split at h
  · obtain ⟨q, hq, rfl⟩ := List.mem_map.mp h
    by_cases hk : q.1 = k
    · exact Or.inl (by rw [if_pos hk])
    · exact Or.inr (by rwa [if_neg hk])
  · rcases List.mem_append.mp h with h | h
    · exact Or.inr h
    · exact Or.inl (List.mem_singleton.mp h)

theorem mem_of_get? (d : List (κ × ν)) (k : κ) (v : ν) (h : get? d k = some v) : (k, v) ∈ d := by
  obtain ⟨p, hp, rfl⟩ := Option.map_eq_some_iff.mp h
  have hk : p.1 = k := by simpa using List.find?_some hp
  exact hk ▸ List.mem_of_find?_eq_some hp

theorem get?_isSome (d : List (κ × ν)) (k : κ) : (get? d k).isSome ↔ k ∈ keys d := by
  simp [get?, keys, List.find?_isSome]

theorem set_ne_nil (d : List (κ × ν)) (k : κ) (v : ν) : set d k v ≠ [] := by
  have hk : k ∈ keys (set d k v) := by
    rw [keys_set]
    split
    · assumption
    · simp
  intro hnil
  rw [hnil] at hk
  cases hk

theorem get?_set_self (d : List (κ × ν)) (k : κ) (v : ν) : get? (set d k v) k = some v := by
  rw [get?, set]
  by_cases hk : k ∈ keys d
  · rw [if_pos hk]
    obtain ⟨p, hp, rfl⟩ := List.mem_map.mp hk
    clear hk
    induction d with
    | nil => cases hp
    | cons q d ih =>
      by_cases hq : q.1 = p.1
      · simp [hq]
      · rw [List.map_cons, if_neg hq, List.find?_cons_of_neg (by simpa using hq)]
        exact ih ((List.mem_cons.mp hp).resolve_left (fun heq => hq (heq ▸ rfl)))
  · have hnone : d.find? (fun p => decide (p.1 = k)) = none := by
      rw [List.find?_eq_none]
      intro p hp heq
      exact hk (List.mem_map.mpr ⟨p, hp, of_decide_eq_true heq⟩)
    rw [if_neg hk, List.find?_append, hnone]
    simp

theorem get?_set_of_ne (d : List (κ × ν)) (k k' : κ) (v : ν) (h : k' ≠ k) :
    get? (set d k v) k' = get? d k' := by
  rw [get?, set]
  by_cases hk : k ∈ keys d
  · rw [if_pos hk, get?]
    clear hk
    induction d with
    | nil => rfl
    | cons q d ih =>
      rw [List.map_cons]
      by_cases hq : q.1 = k
      · rw [if_pos hq, List.find?_cons_of_neg (by simpa using h.symm),
          List.find?_cons_of_neg (by simpa [hq] using h.symm)]
        exact ih
      · rw [if_neg hq]
        by_cases hq' : q.1 = k'
        · rw [List.find?_cons_of_pos (by simpa using hq'), List.find?_cons_of_pos (by simpa using hq')]
        · rw [List.find?_cons_of_neg (by simpa using hq'), List.find?_cons_of_neg (by simpa using hq')]
          exact ih
  · rw [if_neg hk, List.find?_append, get?]
    simp [h.symm]

theorem get?_eq_some_iff (d : List (κ × ν)) (hd : (keys d).Nodup) (k : κ) (v : ν) :
    get? d k = some v ↔ (k, v) ∈ d := by
  constructor
  · exact mem_of_get? d k v
  · intro hmem
    have hk : k ∈ keys d := List.mem_map.mpr ⟨_, hmem, rfl⟩
    obtain ⟨w, hw⟩ := Option.isSome_iff_exists.mp ((get?_isSome d k).mpr hk)
    have hsame := List.inj_on_of_nodup_map hd (mem_of_get? d k w hw) hmem rfl
    rw [hw, (Prod.mk.inj hsame).2]

section Best
variable {β : Type*} [LinearOrder β]

/-- The first of the greatest values among the images. -/
theorem argmax_map {μ : Type*} (g : μ → ν) (f : ν → β) (l : List μ) :
    (l.map g).argmax f = (l.argmax (f ∘ g)).map g := by
  induction l using List.reverseRecOn with
  | nil => rfl
  | append_singleton l a ih =>
    rw [List.map_append, List.map_singleton, List.argmax_concat, List.argmax_concat, ih]
    cases l.argmax (f ∘ g) with
    | none => rfl
    | some c =>
      show (if f (g c) < f (g a) then some (g a) else some (g c)) =
        (if f (g c) < f (g a) then some a else some c).map g
      split <;> rfl

def keep (f : ν → β) (d : List (κ × ν)) (p : κ × ν) : List (κ × ν) :=
  match get? d p.1 with
  | none => set d p.1 p.2
  | some old => if f old < f p.2 then set d p.1 p.2 else d

theorem keep_get (f : ν → β) (d : List (κ × ν)) (p : κ × ν) (k : κ) :
    get? (keep f d p) k = if p.1 = k then
      Option.casesOn (get? d k) (some p.2) (fun old => if f old < f p.2 then some p.2 else some old)
      else get? d k := by
  rw [keep]
  by_cases hk : p.1 = k
  · rw [if_pos hk, hk]
    cases hg : get? d k with
    | none => exact get?_set_self d k p.2
    | some old =>
      show get? (if f old < f p.2 then set d k p.2 else d) k = if f old < f p.2 then _ else _
      split
      · exact get?_set_self d k p.2
      · exact hg
  · rw [if_neg hk]
    cases get? d p.1 with
    | none => exact get?_set_of_ne d p.1 k p.2 (Ne.symm hk)
    | some old =>
      show get? (if f old < f p.2 then set d p.1 p.2 else d) k = _
      split
      · exact get?_set_of_ne d p.1 k p.2 (Ne.symm hk)
      · rfl

/-- What is kept of a key is the first of its greatest values. -/
theorem keep_argmax (f : ν → β) (ps : List (κ × ν)) (k : κ) :
    get? (ps.foldl (keep f) []) k =
      ((ps.filter (fun p => decide (p.1 = k))).map Prod.snd).argmax f := by
  induction ps using List.reverseRecOn with
  | nil => rfl
  | append_singleton ps p ih =>
    rw [List.foldl_append, List.foldl_cons, List.foldl_nil, keep_get, ih, List.filter_append,
      List.map_append]
    by_cases hk : p.1 = k
    · rw [if_pos hk, List.filter_cons_of_pos (by simpa using hk), List.filter_nil, List.map_singleton,
        List.argmax_concat]
    · rw [if_neg hk, List.filter_cons_of_neg (by simpa using hk), List.filter_nil, List.map_nil,
        List.append_nil]

end Best

def raise (d : List (κ × ℕ)) (k : κ) (n : ℕ) : List (κ × ℕ) :=
  if (get? d k).getD 0 < n then set d k n else d

theorem raise_get (d : List (κ × ℕ)) (k : κ) (n : ℕ) (hn : 0 < n) (k' : κ) :
    get? (raise d k n) k' =
      if k' = k then some (max ((get? d k').getD 0) n) else get? d k' := by
  rw [raise]
  by_cases hk : k' = k
  · rw [if_pos hk, hk]
    split
    · rename_i hlt
      rw [get?_set_self, max_eq_right (Nat.le_of_lt hlt)]
    · rename_i hle
      cases hg : get? d k with
      | none =>
        rw [hg] at hle
        exact absurd hn hle
      | some m =>
        rw [hg, Option.getD_some, not_lt] at hle
        exact congrArg some (max_eq_left hle).symm
  · rw [if_neg hk]
    split
    · exact get?_set_of_ne d k k' n hk
    · rfl

theorem raise_nodup (d : List (κ × ℕ)) (k : κ) (n : ℕ) (h : (keys d).Nodup) :
    (keys (raise d k n)).Nodup := by
  rw [raise]
  split
  · exact nodup_set d k n h
  · exact h

def add (d : List (κ × List ν)) (p : κ × ν) : List (κ × List ν) :=
  set d p.1 ((get? d p.1).getD []++[p.2])

def group (ps : List (κ × ν)) : List (κ × List ν) := ps.foldl add []

theorem group_concat (ps : List (κ × ν)) (p : κ × ν) : group (ps++[p]) = add (group ps) p := by
  rw [group, List.foldl_append]
  rfl

theorem group_get (ps : List (κ × ν)) (k : κ) :
    (get? (group ps) k).getD [] = (ps.filter (fun p => decide (p.1 = k))).map Prod.snd := by
  induction ps using List.reverseRecOn with
  | nil => rfl
  | append_singleton ps p ih =>
    rw [group_concat, add, List.filter_append, List.map_append, ← ih]
    by_cases hk : p.1 = k
    · subst hk
      rw [get?_set_self]
      simp
    · rw [get?_set_of_ne _ _ _ _ (Ne.symm hk)]
      simp [hk]

theorem mem_group_keys (ps : List (κ × ν)) (k : κ) : k ∈ keys (group ps) ↔ ∃ p ∈ ps, p.1 = k := by
  induction ps using List.reverseRecOn with
  | nil => simp [group, keys]
  | append_singleton ps p ih =>
    rw [group_concat, add, keys_set]
    by_cases hp : p.1 ∈ keys (group ps)
    · rw [if_pos hp, ih]
      constructor
      · rintro ⟨q, hq, rfl⟩
        exact ⟨q, List.mem_append_left _ hq, rfl⟩
      · rintro ⟨q, hq, rfl⟩
        rcases List.mem_append.mp hq with hq | hq
        · exact ⟨q, hq, rfl⟩
        · obtain rfl := List.mem_singleton.mp hq
          exact ih.mp hp
    · rw [if_neg hp, List.mem_append, ih, List.mem_singleton]
      simp only [List.mem_append, List.mem_singleton]
      constructor
      · rintro (⟨q, hq, rfl⟩ | rfl)
        · exact ⟨q, .inl hq, rfl⟩
        · exact ⟨p, .inr rfl, rfl⟩
      · rintro ⟨q, hq | rfl, rfl⟩
        · exact .inl ⟨q, hq, rfl⟩
        · exact .inr rfl

theorem group_nodup (ps : List (κ × ν)) : (keys (group ps)).Nodup := by
  induction ps using List.reverseRecOn with
  | nil => exact List.nodup_nil
  | append_singleton ps p ih =>
    rw [group_concat]
    exact nodup_set _ _ _ ih

end Lib.Dict
