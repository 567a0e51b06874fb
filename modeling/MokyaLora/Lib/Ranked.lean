import Mathlib.Data.List.DropRight

/-!
# Ranked lists built one element at a time

`shiftIn` is the inner loop of an insertion sort: the new element moves in from
the right while the ones before it are worse.
-/

set_option autoImplicit false

namespace Lib.Ranked

variable {α : Type*}

def shiftIn (worse : α → Bool) (l : List α) (x : α) : List α :=
  l.rdropWhile worse++x::l.rtakeWhile worse

theorem rdrop_append_rtake (p : α → Bool) (l : List α) :
    l.rdropWhile p++l.rtakeWhile p = l := by
  rw [List.rdropWhile, List.rtakeWhile, ← List.reverse_append, List.takeWhile_append_dropWhile,
    List.reverse_reverse]

theorem shiftIn_perm (worse : α → Bool) (l : List α) (x : α) :
    (shiftIn worse l x).Perm (x::l) := by
  have h : (shiftIn worse l x).Perm _ := List.perm_middle
  rwa [rdrop_append_rtake] at h

@[simp] theorem shiftIn_length (worse : α → Bool) (l : List α) (x : α) :
    (shiftIn worse l x).length = l.length+1 := by
  rw [(shiftIn_perm worse l x).length_eq, List.length_cons]

theorem mem_shiftIn (worse : α → Bool) (l : List α) (x y : α) :
    y ∈ shiftIn worse l x ↔ y = x ∨ y ∈ l := by
  rw [(shiftIn_perm worse l x).mem_iff, List.mem_cons]

theorem shiftIn_cons (worse : α → Bool) (m : α) (l : List α) (x : α) (h : ¬ worse m) :
    ∃ rest, shiftIn worse (m::l) x = m::rest := by
  have hne : (m::l).rdropWhile worse ≠ [] := by
    intro hnil
    exact h (List.rdropWhile_eq_nil_iff.mp hnil m (by simp))
  obtain ⟨tail, htail⟩ := List.rdropWhile_prefix worse (l := m::l)
  cases hd : (m::l).rdropWhile worse with
  | nil => exact absurd hd hne
  | cons a rest =>
    rw [hd, List.cons_append, List.cons.injEq] at htail
    exact ⟨rest++x::(m::l).rtakeWhile worse, by rw [shiftIn, hd, htail.1]; rfl⟩

theorem shiftIn_front (worse : α → Bool) (l : List α) (x : α) (h : ∀ y ∈ l, worse y) :
    shiftIn worse l x = x::l.rtakeWhile worse := by
  rw [shiftIn, List.rdropWhile_eq_nil_iff.mpr h, List.nil_append]

theorem shiftIn_map {β : Type*} (worse : α → Bool) (worse' : β → Bool) (f : α → β) (l : List α)
    (x : α) (h : ∀ y ∈ l, worse' (f y) = worse y) :
    shiftIn worse' (l.map f) (f x) = (shiftIn worse l x).map f := by
  have hparts : (l.map f).rdropWhile worse' = (l.rdropWhile worse).map f ∧
      (l.map f).rtakeWhile worse' = (l.rtakeWhile worse).map f := by
    induction l using List.reverseRecOn with
    | nil => exact ⟨rfl, rfl⟩
    | append_singleton l a ih =>
      obtain ⟨hd, ht⟩ := ih (fun y hy => h y (List.mem_append_left _ hy))
      have ha : worse' (f a) = worse a := h a (by simp)
      rw [List.map_append, List.map_singleton]
      by_cases hw : worse a = true
      · have hw' : worse' (f a) = true := ha.trans hw
        rw [List.rdropWhile_concat_pos _ _ _ hw', List.rdropWhile_concat_pos _ _ _ hw,
          List.rtakeWhile_concat_pos _ _ _ hw', List.rtakeWhile_concat_pos _ _ _ hw, hd, ht]
        simp
      · have hw' : ¬ worse' (f a) = true := fun hc => hw (ha.symm.trans hc)
        rw [List.rdropWhile_concat_neg _ _ _ hw', List.rdropWhile_concat_neg _ _ _ hw,
          List.rtakeWhile_concat_neg _ _ _ hw', List.rtakeWhile_concat_neg _ _ _ hw]
        simp
  rw [shiftIn, shiftIn, hparts.1, hparts.2, List.map_append, List.map_cons]

/-- `shiftIn` in an array: the elements in front of `pos` that are worse move up by one,
and the place that becomes free is found. -/
def shiftUp (worse : α → Bool) : ℕ → List α → Option (ℕ × List α)
  | 0, l => some (0, l)
  | pos+1, l => do
    let prev ← l[pos]?
    if worse prev then
      if pos+1 < l.length then shiftUp worse pos (l.set (pos+1) prev) else none
    else some (pos+1, l)

theorem shiftIn_concat (worse : α → Bool) (l : List α) (y x : α) : shiftIn worse (l++[y]) x =
    if worse y then shiftIn worse l x++[y] else l++[y, x] := by
  rw [shiftIn, shiftIn, List.rdropWhile_concat, List.rtakeWhile_concat]
  by_cases h : worse y = true
  · rw [if_pos h, if_pos h, if_pos h]
    simp
  · rw [if_neg h, if_neg h, if_neg h]
    simp

theorem shiftUp_eq (worse : α → Bool) (pos : ℕ) (l : List α) (h : pos < l.length) :
    ∃ p l' y, shiftUp worse pos l = some (p, l') ∧ l'[p]? = some y ∧
      ∀ x, l'.set p x = shiftIn worse (l.take pos) x++l.drop (pos+1) := by
  induction pos generalizing l with
  | zero =>
    cases l with
    | nil => cases h
    | cons y l => exact ⟨0, y::l, y, rfl, rfl, fun x => rfl⟩
  | succ pos ih =>
    have hpos : pos < l.length := Nat.lt_of_succ_lt h
    have htake : l.take (pos+1) = l.take pos++[l[pos]] :=
      (List.take_append_getElem hpos).symm
    rw [shiftUp, List.getElem?_eq_getElem hpos, htake]
    by_cases hw : worse l[pos] = true
    · obtain ⟨p, l', y, hshift, hget, hset⟩ := ih (l.set (pos+1) l[pos]) (by simpa using hpos)
      refine ⟨p, l', y, ?_, hget, fun x => ?_⟩
      · simp only [Option.bind_eq_bind, Option.bind_some, if_pos hw, if_pos h]
        exact hshift
      · rw [hset, shiftIn_concat, if_pos hw, List.take_set_of_le (Nat.le_succ pos),
          List.drop_set, if_neg (Nat.lt_irrefl _), List.append_assoc, List.drop_eq_getElem_cons h,
          Nat.sub_self]
        rfl
    · refine ⟨pos+1, l, l[pos+1], ?_, List.getElem?_eq_getElem h, fun x => ?_⟩
      · simp only [Option.bind_eq_bind, Option.bind_some, if_neg hw]
      · rw [shiftIn_concat, if_neg hw, List.set_eq_take_append_cons_drop, if_pos h, htake,
          List.append_assoc, List.append_assoc]
        rfl

section Head

variable (worse : α → α → Bool) (m : α)

theorem shifted_keeps_head (xs l : List α) (hxs : ∀ x ∈ xs, ¬ worse m x) :
    ∃ rest, xs.foldl (fun l x => shiftIn (fun p => worse p x) l x) (m::l) = m::rest := by
  induction xs generalizing l with
  | nil => exact ⟨l, rfl⟩
  | cons x xs ih =>
    obtain ⟨rest, hrest⟩ := shiftIn_cons (fun p => worse p x) m l x (hxs x (by simp))
    rw [List.foldl_cons, hrest]
    exact ih rest (fun y hy => hxs y (List.mem_cons_of_mem x hy))

theorem mem_shifted (xs l : List α) (y : α) :
    y ∈ xs.foldl (fun l x => shiftIn (fun p => worse p x) l x) l ↔ y ∈ l ∨ y ∈ xs := by
  induction xs generalizing l with
  | nil => simp
  | cons x xs ih =>
    rw [List.foldl_cons, ih, mem_shiftIn, List.mem_cons]
    tauto

theorem shifted_map {β : Type*} (worse' : β → β → Bool) (f : α → β) (xs l : List α)
    (h : ∀ x y, x ∈ l ∨ x ∈ xs → y ∈ l ∨ y ∈ xs → worse' (f x) (f y) = worse x y) :
    (xs.map f).foldl (fun l x => shiftIn (fun p => worse' p x) l x) (l.map f) =
      (xs.foldl (fun l x => shiftIn (fun p => worse p x) l x) l).map f := by
  induction xs generalizing l with
  | nil => rfl
  | cons x xs ih =>
    have hx : x ∈ l ∨ x ∈ x::xs := .inr (List.mem_cons_self ..)
    rw [List.map_cons, List.foldl_cons, List.foldl_cons,
      shiftIn_map (fun p => worse p x) _ f l x (fun y hy => h y x (.inl hy) hx)]
    apply ih
    intro y z hy hz
    rw [mem_shiftIn] at hy hz
    exact h y z (by rw [List.mem_cons]; tauto) (by rw [List.mem_cons]; tauto)

/-- Of a list sorted by insertion, the first element is the one that those before it
are worse than and that is not worse than those behind it. -/
theorem sorted_head (pre post : List α) (hpre : ∀ y ∈ pre, worse y m)
    (hpost : ∀ y ∈ post, ¬ worse m y) :
    ∃ rest, (pre++m::post).foldl (fun l x => shiftIn (fun p => worse p x) l x) [] = m::rest := by
  have hbefore : ∀ y ∈ pre.foldl (fun l x => shiftIn (fun p => worse p x) l x) [], worse y m := by
    intro y hy
    exact hpre y (((mem_shifted worse pre [] y).mp hy).resolve_left List.not_mem_nil)
  rw [List.foldl_append, List.foldl_cons, shiftIn_front _ _ m hbefore]
  exact shifted_keeps_head worse m post _ hpost

end Head

section Order

variable (worse : α → α → Bool) (before came : α → α → Prop)

theorem shiftIn_sorted (htrans : ∀ x y z, before x y → before y z → before x z)
    (hworse : ∀ x y, worse y x = true → before x y)
    (hkeep : ∀ x y, worse y x = false → came y x → before y x)
    (l : List α) (x : α) (hl : l.Pairwise before) (hx : ∀ y ∈ l, came y x) :
    (shiftIn (fun p => worse p x) l x).Pairwise before := by
  induction l using List.reverseRecOn with
  | nil => exact List.pairwise_singleton before x
  | append_singleton l y ih =>
    obtain ⟨hfront, -, hlast⟩ := List.pairwise_append.mp hl
    have hy : ∀ z ∈ l, before z y := fun z hz => hlast z hz y (List.mem_singleton_self y)
    rw [shiftIn_concat]
    split
    · rename_i hmoves
      rw [List.pairwise_append]
      refine ⟨ih hfront (fun z hz => hx z (List.mem_append_left _ hz)),
        List.pairwise_singleton before y, fun z hz z' hz' => ?_⟩
      rw [List.mem_singleton.mp hz']
      rcases (mem_shiftIn _ l x z).mp hz with rfl | hz
      · exact hworse z y hmoves
      · exact hy z hz
    · rename_i hstays
      have hyx : before y x :=
        hkeep x y (Bool.eq_false_iff.mpr hstays) (hx y (List.mem_append_right _ (by simp)))
      rw [List.pairwise_append, List.pairwise_pair]
      refine ⟨hfront, hyx, fun z hz z' hz' => ?_⟩
      rcases List.mem_pair.mp hz' with rfl | rfl
      · exact hy z hz
      · exact htrans z y z' (hy z hz) hyx

theorem sorted_pairwise (htrans : ∀ x y z, before x y → before y z → before x z)
    (hworse : ∀ x y, worse y x = true → before x y)
    (hkeep : ∀ x y, worse y x = false → came y x → before y x)
    (xs l : List α) (hl : l.Pairwise before) (hxs : xs.Pairwise came)
    (hcame : ∀ y ∈ l, ∀ x ∈ xs, came y x) :
    (xs.foldl (fun l x => shiftIn (fun p => worse p x) l x) l).Pairwise before := by
  induction xs generalizing l with
  | nil => exact hl
  | cons x xs ih =>
    obtain ⟨hx, hrest⟩ := List.pairwise_cons.mp hxs
    rw [List.foldl_cons]
    apply ih _ _ hrest
    · intro y hy z hz
      rcases (mem_shiftIn _ l x y).mp hy with rfl | hy
      · exact hx z hz
      · exact hcame y hy z (List.mem_cons_of_mem x hz)
    · exact shiftIn_sorted worse before came htrans hworse hkeep l x hl
        (fun y hy => hcame y hy x (List.mem_cons_self ..))

end Order

section Duplicates

variable (same : α → α → Bool) (capacity : ℕ)

def keepNew (out : List α) (x : α) : List α :=
  if out.length < capacity ∧ ¬ out.any (fun o => same o x) then out++[x] else out

/-- The first of the same elements are kept, as many as there is room for. -/
theorem fold_keepNew (xs out : List α) (h : out.length ≤ capacity) :
    xs.foldl (keepNew same capacity) out =
      (out++(xs.filter (fun x => !out.any (fun o => same o x))).eraseDupsBy
        (fun x o => same o x)).take capacity := by
  induction xs generalizing out with
  | nil => simp [List.take_of_length_le h]
  | cons x xs ih =>
    rw [List.foldl_cons, keepNew]
    by_cases hdup : out.any (fun o => same o x) = true
    · rw [if_neg (fun hc => hc.2 hdup), ih out h, List.filter_cons_of_neg (by simp [hdup])]
    · rw [List.filter_cons_of_pos (by simpa using hdup), List.eraseDupsBy_cons, List.filter_filter]
      by_cases hroom : out.length < capacity
      · have hlen : (out++[x]).length ≤ capacity := by
          rw [List.length_append]
          exact Nat.succ_le_of_lt hroom
        rw [if_pos ⟨hroom, hdup⟩, ih _ hlen]
        simp [List.any_append, Bool.and_comm]
      · have hfull : capacity = out.length := Nat.le_antisymm (Nat.not_lt.mp hroom) h
        rw [if_neg (fun hc => hroom hc.1), ih out h, hfull, List.take_left, List.take_left]

theorem fold_keepNew_apart (xs out : List α) (h : out.Pairwise (fun o x => same o x = false)) :
    (xs.foldl (keepNew same capacity) out).Pairwise (fun o x => same o x = false) := by
  induction xs generalizing out with
  | nil => exact h
  | cons x xs ih =>
    rw [List.foldl_cons]
    apply ih
    by_cases hnew : out.length < capacity ∧ ¬ out.any (fun o => same o x)
    · rw [keepNew, if_pos hnew, List.pairwise_append]
      exact ⟨h, List.pairwise_singleton .., by simpa using hnew.2⟩
    · rw [keepNew, if_neg hnew]
      exact h

theorem fold_keepNew_extends (xs out : List α) : out <+: xs.foldl (keepNew same capacity) out := by
  induction xs generalizing out with
  | nil => exact List.prefix_rfl
  | cons x xs ih =>
    have hstep : out <+: keepNew same capacity out x := by
      unfold keepNew
      split
      · exact List.prefix_append out [x]
      · exact List.prefix_rfl
    exact hstep.trans (ih _)

theorem fold_keepNew_sublist (xs out : List α) :
    (xs.foldl (keepNew same capacity) out).Sublist (out++xs) := by
  induction xs generalizing out with
  | nil => simp
  | cons x xs ih =>
    have hstep : (keepNew same capacity out x++xs).Sublist (out++x::xs) := by
      unfold keepNew
      split
      · simp
      · exact (List.sublist_cons_self x xs).append_left out
    exact (ih _).trans hstep

theorem fold_keepNew_length (xs out : List α) (h : out.length ≤ capacity) :
    (xs.foldl (keepNew same capacity) out).length ≤ capacity := by
  rw [fold_keepNew same capacity xs out h, List.length_take]
  exact Nat.min_le_left _ _

theorem fold_keepNew_covers (hself : ∀ x, same x x = true) (xs out : List α)
    (h : (xs.foldl (keepNew same capacity) out).length < capacity) (x : α) (hx : x ∈ xs) :
    ∃ o ∈ xs.foldl (keepNew same capacity) out, same o x = true := by
  induction xs generalizing out with
  | nil => cases hx
  | cons y xs ih =>
    rw [List.foldl_cons] at h ⊢
    rcases List.mem_cons.mp hx with rfl | hx
    · have hkept := fold_keepNew_extends same capacity xs (keepNew same capacity out x)
      have hthere : ∃ o ∈ keepNew same capacity out x, same o x = true := by
        have hroom : out.length < capacity := by
          have hgrow : out.length ≤ (keepNew same capacity out x).length := by
            unfold keepNew
            split
            · simp
            · exact le_refl _
          exact lt_of_le_of_lt hgrow (lt_of_le_of_lt hkept.length_le h)
        unfold keepNew
        by_cases hdup : out.any (fun o => same o x) = true
        · rw [if_neg (fun hc => hc.2 hdup)]
          exact List.any_eq_true.mp hdup
        · rw [if_pos ⟨hroom, hdup⟩]
          exact ⟨x, by simp, hself x⟩
      obtain ⟨o, ho, hsame⟩ := hthere
      exact ⟨o, hkept.subset ho, hsame⟩
    · exact ih _ h hx

theorem fold_keepNew_congr (same' : α → α → Bool) (xs out : List α)
    (h : ∀ x ∈ out++xs, ∀ y ∈ out++xs, same x y = same' x y) :
    xs.foldl (keepNew same capacity) out = xs.foldl (keepNew same' capacity) out := by
  induction xs generalizing out with
  | nil => rfl
  | cons x xs ih =>
    have hany : out.any (fun o => same o x) = out.any (fun o => same' o x) := by
      rw [Bool.eq_iff_iff, List.any_eq_true, List.any_eq_true]
      apply exists_congr
      intro o
      apply and_congr_right
      intro ho
      rw [h o (List.mem_append_left _ ho) x (by simp)]
    have hstep : keepNew same capacity out x = keepNew same' capacity out x := by
      rw [keepNew, keepNew, hany]
    have hsub : keepNew same' capacity out x++xs ⊆ out++x::xs := by
      intro y hy
      unfold keepNew at hy
      split at hy
      · simpa [or_assoc] using hy
      · rcases List.mem_append.mp hy with hy | hy
        · exact List.mem_append_left _ hy
        · exact List.mem_append_right _ (List.mem_cons_of_mem x hy)
    rw [List.foldl_cons, List.foldl_cons, hstep]
    exact ih _ (fun y hy z hz => h y (hsub hy) z (hsub hz))

end Duplicates

end Lib.Ranked
