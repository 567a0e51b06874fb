import Mathlib.Data.List.Basic
import Mathlib.Data.List.Count
import Mathlib.Data.List.Perm.Subperm
import Mathlib.Data.List.Sort
import Mathlib.Tactic.Common

/-!
# Keeping the best elements of a stream

A pool of bounded capacity takes elements while it has room and then replaces
its least element by a greater one. Its least element is remembered by its index
and looked up again after a change. In the end no element was left out that ranks
above one in the pool.
-/

set_option autoImplicit false

namespace Lib.TopK

variable {α : Type*} (rank : α → ℕ)

def rankAt (items : List α) (i : ℕ) : ℕ :=
  match items[i]? with
  | some x => rank x
  | none => 0

def leastIndex (items : List α) : ℕ :=
  (List.range items.length).foldl
    (fun m i => if rankAt rank items i < rankAt rank items m then i else m) 0

structure Pool (α : Type*) where
  items : List α
  minIdx : ℕ

def Pool.empty : Pool α := ⟨[], 0⟩

def Pool.emit (cap : ℕ) (p : Pool α) (x : α) : Pool α :=
  if p.items.length < cap then
    let minIdx := if p.items = [] ∨ rank x < rankAt rank p.items p.minIdx then p.items.length
      else p.minIdx
    let items := p.items++[x]
    ⟨items, if items.length = cap then leastIndex rank items else minIdx⟩
  else if rankAt rank p.items p.minIdx < rank x then
    let items := p.items.set p.minIdx x
    ⟨items, leastIndex rank items⟩
  else p

/-- The pool after a stream. -/
def collect (cap : ℕ) (xs : List α) : List α := (xs.foldl (Pool.emit rank cap) .empty).items

theorem least_index_spec (items : List α) (h : items ≠ []) :
    leastIndex rank items < items.length ∧
    ∀ x ∈ items, rankAt rank items (leastIndex rank items) ≤ rank x := by
  have hpos := List.length_pos_iff.mpr h
  have hfold : ∀ n ≤ items.length,
      let m := (List.range n).foldl
        (fun m i => if rankAt rank items i < rankAt rank items m then i else m) 0
      m < items.length ∧ ∀ i < n, rankAt rank items m ≤ rankAt rank items i := by
    intro n
    induction n with
    | zero => exact fun _ => ⟨hpos, fun i hi => absurd hi (Nat.not_lt_zero i)⟩
    | succ n ih =>
      intro hn
      obtain ⟨hlt, hle⟩ := ih (Nat.le_of_succ_le hn)
      simp only [List.range_succ, List.foldl_append, List.foldl_cons, List.foldl_nil]
      split
      · rename_i hnew
        refine ⟨hn, fun i hi => ?_⟩
        rcases Nat.lt_succ_iff_lt_or_eq.mp hi with hi | rfl
        · exact le_trans (le_of_lt hnew) (hle i hi)
        · exact le_refl _
      · rename_i hold
        refine ⟨hlt, fun i hi => ?_⟩
        rcases Nat.lt_succ_iff_lt_or_eq.mp hi with hi | rfl
        · exact hle i hi
        · exact not_lt.mp hold
  obtain ⟨hlt, hle⟩ := hfold items.length (le_refl _)
  refine ⟨hlt, fun x hx => ?_⟩
  obtain ⟨i, hi, rfl⟩ := List.getElem_of_mem hx
  have hat : rankAt rank items i = rank items[i] := by rw [rankAt, List.getElem?_eq_getElem hi]
  exact hat ▸ hle i hi

/-- The pool holds the elements of the stream but for some that rank no higher. -/
structure Holds (cap : ℕ) (xs : List α) (p : Pool α) : Prop where
  rest : ∃ rest, (p.items++rest).Perm xs ∧ ∀ y ∈ rest, ∀ x ∈ p.items, rank y ≤ rank x
  length : p.items.length = min cap xs.length
  least : p.items.length = cap → p.minIdx < p.items.length ∧
    ∀ x ∈ p.items, rankAt rank p.items p.minIdx ≤ rank x

theorem set_perm (l : List α) (i : ℕ) (x : α) (h : i < l.length) :
    (l[i]::l.set i x).Perm (x::l) := by
  have hset := List.set_eq_take_append_cons_drop (l := l) (i := i) (a := x)
  rw [if_pos h] at hset
  have hl : l = l.take i++l[i]::l.drop (i+1) := by
    rw [← List.drop_eq_getElem_cons h, List.take_append_drop]
  rw [hset]
  conv_rhs => rw [hl]
  refine ((List.perm_middle).cons l[i]).trans ?_
  refine (List.Perm.swap x l[i] _).trans ?_
  exact (List.perm_middle.symm).cons x

theorem holds_room (cap : ℕ) (xs : List α) (p : Pool α) (x : α) (idx : ℕ) (h : Holds rank cap xs p)
    (hroom : p.items.length < cap)
    (hidx : (p.items++[x]).length = cap → idx = leastIndex rank (p.items++[x])) :
    Holds rank cap (xs++[x]) ⟨p.items++[x], idx⟩ := by
  obtain ⟨rest, hperm, -⟩ := h.rest
  have hlen := hperm.length_eq
  have hl := h.length
  rw [List.length_append] at hlen
  have hnil : rest = [] := List.eq_nil_of_length_eq_zero (by omega)
  subst hnil
  rw [List.append_nil] at hperm
  refine ⟨⟨[], ?_, by simp⟩, by simp; omega, ?_⟩
  · rw [List.append_nil]
    exact hperm.append_right [x]
  · intro hfull
    rw [hidx hfull]
    exact least_index_spec rank _ (by simp)

theorem holds_replace (cap : ℕ) (hcap : 0 < cap) (xs : List α) (p : Pool α) (x : α)
    (h : Holds rank cap xs p) (heq : p.items.length = cap)
    (hnew : rankAt rank p.items p.minIdx < rank x) :
    Holds rank cap (xs++[x])
      ⟨p.items.set p.minIdx x, leastIndex rank (p.items.set p.minIdx x)⟩ := by
  obtain ⟨rest, hperm, hrest⟩ := h.rest
  have hlen := hperm.length_eq
  rw [List.length_append] at hlen
  obtain ⟨hmin, hle⟩ := h.least heq
  have hat : rankAt rank p.items p.minIdx = rank p.items[p.minIdx] := by
    rw [rankAt, List.getElem?_eq_getElem hmin]
  have hset := set_perm p.items p.minIdx x hmin
  have hge : ∀ z ∈ p.items.set p.minIdx x, rankAt rank p.items p.minIdx ≤ rank z := by
    intro z hz
    rcases List.mem_or_eq_of_mem_set hz with hz | rfl
    · exact hle z hz
    · exact le_of_lt hnew
  refine ⟨⟨p.items[p.minIdx]::rest, ?_, ?_⟩, ?_, ?_⟩
  · refine (List.perm_middle).trans ?_
    refine ((hset.append_right rest).trans ?_).trans (List.perm_append_singleton x xs).symm
    exact (hperm.cons x)
  · intro y hy z hz
    rcases List.mem_cons.mp hy with rfl | hy
    · exact hat ▸ hge z hz
    · exact le_trans (hat ▸ hrest y hy _ (List.getElem_mem hmin)) (hge z hz)
  · simp
    omega
  · intro _
    exact least_index_spec rank _ (by
      rw [← List.length_pos_iff, List.length_set]
      omega)

theorem holds_skip (cap : ℕ) (xs : List α) (p : Pool α) (x : α) (h : Holds rank cap xs p)
    (heq : p.items.length = cap) (hold : rank x ≤ rankAt rank p.items p.minIdx) :
    Holds rank cap (xs++[x]) p := by
  obtain ⟨rest, hperm, hrest⟩ := h.rest
  have hlen := hperm.length_eq
  rw [List.length_append] at hlen
  refine ⟨⟨x::rest, ?_, ?_⟩, by simp; omega, h.least⟩
  · exact (List.perm_middle.trans (hperm.cons x)).trans (List.perm_append_singleton x xs).symm
  · intro y hy z hz
    rcases List.mem_cons.mp hy with rfl | hy
    · exact le_trans hold ((h.least heq).2 z hz)
    · exact hrest y hy z hz

theorem holds_emit (cap : ℕ) (hcap : 0 < cap) (xs : List α) (p : Pool α) (x : α)
    (h : Holds rank cap xs p) : Holds rank cap (xs++[x]) (p.emit rank cap x) := by
  have hl := h.length
  unfold Pool.emit
  split
  · rename_i hroom
    exact holds_room rank cap xs p x _ h hroom (fun hfull => if_pos hfull)
  · rename_i hfull
    have heq : p.items.length = cap := by omega
    split
    · rename_i hnew
      exact holds_replace rank cap hcap xs p x h heq hnew
    · rename_i hold
      exact holds_skip rank cap xs p x h heq (not_lt.mp hold)

theorem holds_collect (cap : ℕ) (hcap : 0 < cap) (xs : List α) :
    Holds rank cap xs (xs.foldl (Pool.emit rank cap) .empty) := by
  have hstart : Holds rank cap [] (.empty : Pool α) :=
    ⟨⟨[], by simp [Pool.empty], by simp⟩, by simp [Pool.empty],
      fun h => absurd h (by simp [Pool.empty]; omega)⟩
  have hrun : ∀ (xs seen : List α) (p : Pool α), Holds rank cap seen p →
      Holds rank cap (seen++xs) (xs.foldl (Pool.emit rank cap) p) := by
    intro xs
    induction xs with
    | nil =>
      intro seen p h
      rwa [List.append_nil]
    | cons x xs ih =>
      intro seen p h
      rw [List.foldl_cons, ← List.singleton_append, ← List.append_assoc]
      exact ih _ _ (holds_emit rank cap hcap seen p x h)
  exact hrun xs [] .empty hstart

theorem collect_length (cap : ℕ) (hcap : 0 < cap) (xs : List α) :
    (collect rank cap xs).length = min cap xs.length :=
  (holds_collect rank cap hcap xs).length

/-- Sorting in descending order of rank; the order of equal ranks is left open. -/
structure DescendingSort where
  sort : {α : Type} → (α → ℕ) → List α → List α
  perm : ∀ {α : Type} (rank : α → ℕ) (l : List α), (sort rank l).Perm l
  sorted : ∀ {α : Type} (rank : α → ℕ) (l : List α),
    (sort rank l).Pairwise (fun a b => rank b ≤ rank a)

def DescendingSort.stable : DescendingSort where
  sort rank l := l.insertionSort (fun a b => rank b ≤ rank a)
  perm rank l := List.perm_insertionSort _ l
  sorted {α} rank l := by
    have : Std.Total (fun a b : α => rank b ≤ rank a) := ⟨fun a b => le_total (rank b) (rank a)⟩
    have : IsTrans α (fun a b => rank b ≤ rank a) := ⟨fun _ _ _ h h' => le_trans h' h⟩
    exact List.pairwise_insertionSort _ l

/-- What is left in the pool, sorted, is a best selection of the stream. -/
theorem sorted_collect {α : Type} (rank : α → ℕ) (std : DescendingSort) (cap : ℕ) (hcap : 0 < cap)
    (xs : List α) :
    let out := std.sort rank (collect rank cap xs)
    (∃ rest, (out++rest).Perm xs ∧ ∀ y ∈ rest, ∀ x ∈ out, rank y ≤ rank x) ∧
    out.length = min cap xs.length ∧ out.Pairwise (fun a b => rank b ≤ rank a) := by
  have h := holds_collect rank cap hcap xs
  have hperm := std.perm rank (collect rank cap xs)
  obtain ⟨rest, hr, hle⟩ := h.rest
  refine ⟨⟨rest, (hperm.append_right rest).trans hr, ?_⟩, ?_, std.sorted _ _⟩
  · intro y hy x hx
    exact hle y hy x (hperm.mem_iff.mp hx)
  · rw [hperm.length_eq, collect_length rank cap hcap]

/-- A selection of the best that were found, each key once, in descending order. -/
structure Best {κ : Type*} (key : α → κ) (cap : ℕ) (found out : List α) : Prop where
  mem : ∀ x ∈ out, x ∈ found
  nodup : (out.map key).Nodup
  sorted : out.Pairwise (fun a b => rank b ≤ rank a)
  length : out.length = min cap found.length
  omitted : ∀ y ∈ found, y ∉ out → ∀ x ∈ out, rank y ≤ rank x

theorem Best.complete {κ : Type*} {rank : α → ℕ} {key : α → κ} {cap : ℕ} {found out : List α}
    (h : Best rank key cap found out) (hroom : found.length ≤ cap) : ∀ y ∈ found, y ∈ out := by
  have hsub : out.Subperm found := List.Nodup.subperm (List.Nodup.of_map key h.nodup) h.mem
  have hperm := hsub.perm_of_length_le (by rw [h.length]; omega)
  exact fun y hy => hperm.mem_iff.mpr hy

/-- A stream that shows what is to be found in another order and another form. -/
theorem best_collect {α : Type} {β κ : Type*} (rank : α → ℕ) (rank' : β → ℕ) (key : β → κ)
    (f : α → β) (hrank : ∀ x, rank' (f x) = rank x) (std : DescendingSort) (cap : ℕ)
    (hcap : 0 < cap) (xs : List α) (found : List β) (hperm : (xs.map f).Perm found)
    (hnodup : (found.map key).Nodup) :
    Best rank' key cap found ((std.sort rank (collect rank cap xs)).map f) := by
  obtain ⟨⟨rest, hr, hle⟩, hlen, hsorted⟩ := sorted_collect rank std cap hcap xs
  generalize std.sort rank (collect rank cap xs) = out at hr hle hlen hsorted ⊢
  have hall : (out.map f++rest.map f).Perm found := by
    rw [← List.map_append]
    exact (hr.map f).trans hperm
  refine ⟨fun x hx => hall.mem_iff.mp (List.mem_append_left _ hx), ?_, ?_, ?_, ?_⟩
  · have h := (hall.map key).nodup_iff.mpr hnodup
    rw [List.map_append] at h
    exact h.of_append_left
  · rw [List.pairwise_map]
    exact hsorted.imp (fun h => by rwa [hrank, hrank])
  · rw [List.length_map, hlen, ← hperm.length_eq, List.length_map]
  · intro y hy hout x hx
    rcases List.mem_append.mp (hall.mem_iff.mpr hy) with hy | hy
    · exact absurd hy hout
    · obtain ⟨b, hb, rfl⟩ := List.mem_map.mp hy
      obtain ⟨a, ha, rfl⟩ := List.mem_map.mp hx
      rw [hrank, hrank]
      exact hle b hb a ha

/-- How many elements of a stream, of some, rank as high as an element. -/
def asHigh (p : α → Bool) (xs : List α) (x : α) : ℕ :=
  xs.countP (fun y => p y && decide (rank x ≤ rank y))

def higher (p : α → Bool) (xs : List α) (x : α) : ℕ :=
  xs.countP (fun y => p y && decide (rank x < rank y))

theorem as_high_perm (p : α → Bool) {xs ys : List α} (h : xs.Perm ys) (x : α) :
    asHigh rank p xs x = asHigh rank p ys x := h.countP_eq _

theorem higher_perm (p : α → Bool) {xs ys : List α} (h : xs.Perm ys) (x : α) :
    higher rank p xs x = higher rank p ys x := h.countP_eq _

theorem as_high_congr {p q : α → Bool} {xs : List α} (h : ∀ y ∈ xs, p y = q y) (x : α) :
    asHigh rank p xs x = asHigh rank q xs x :=
  List.countP_congr (fun y hy => by rw [h y hy])

theorem higher_congr {p q : α → Bool} {xs : List α} (h : ∀ y ∈ xs, p y = q y) (x : α) :
    higher rank p xs x = higher rank q xs x :=
  List.countP_congr (fun y hy => by rw [h y hy])

variable {rank}

theorem as_high_le (p : α → Bool) {xs : List α} (h : (xs.map rank).Nodup) (x : α) :
    asHigh rank p xs x ≤ higher rank p xs x+1 := by
  have hsum : ∀ l : List α, l.countP (fun y => p y && decide (rank x ≤ rank y)) ≤
      l.countP (fun y => p y && decide (rank x < rank y))+(l.map rank).count (rank x) := by
    intro l
    induction l with
    | nil => exact Nat.zero_le _
    | cons y l ih =>
      simp only [List.countP_cons, List.map_cons, List.count_cons, Bool.and_eq_true,
        decide_eq_true_eq, beq_iff_eq]
      by_cases hp : p y = true
      · simp only [hp, true_and]
        split <;> split <;> split <;> omega
      · rw [if_neg (fun h => hp h.1), if_neg (fun h => hp h.1)]
        omega
  exact (hsum xs).trans (Nat.add_le_add_left (List.nodup_iff_count_le_one.mp h _) _)

theorem mem_take_sorted {l : List α} (hl : l.Pairwise (fun a b => rank b ≤ rank a)) {x : α}
    (hx : x ∈ l) {n : ℕ} (h : l.countP (fun y => decide (rank x ≤ rank y)) ≤ n) : x ∈ l.take n := by
  obtain ⟨i, hi, rfl⟩ := List.getElem_of_mem hx
  have hfront : (l.take (i+1)).countP (fun y => decide (rank l[i] ≤ rank y)) = i+1 := by
    have hall : ∀ y ∈ l.take (i+1), decide (rank l[i] ≤ rank y) = true := by
      intro y hy
      obtain ⟨j, hj, rfl⟩ := List.getElem_of_mem hy
      rw [List.length_take] at hj
      rw [List.getElem_take, decide_eq_true_iff]
      rcases Nat.lt_or_eq_of_le (show j ≤ i by omega) with hlt | rfl
      · exact List.pairwise_iff_getElem.mp hl j i _ hi hlt
      · exact le_refl _
    rw [List.countP_eq_length.mpr hall, List.length_take]
    omega
  have hle := (List.take_sublist (i+1) l).countP_le (p := fun y => decide (rank l[i] ≤ rank y))
  rw [hfront] at hle
  exact List.mem_take_iff_getElem.mpr ⟨i, by omega, rfl⟩

theorem higher_take_sorted {l : List α} (hl : l.Pairwise (fun a b => rank b ≤ rank a)) {x : α}
    {n : ℕ} (hx : x ∈ l.take n) : l.countP (fun y => decide (rank x < rank y)) < n := by
  obtain ⟨i, hi, rfl⟩ := List.mem_take_iff_getElem.mp hx
  have hback : (l.drop i).countP (fun y => decide (rank l[i] < rank y)) = 0 := by
    rw [List.countP_eq_zero]
    intro y hy
    obtain ⟨j, hj, rfl⟩ := List.getElem_of_mem hy
    rw [List.length_drop] at hj
    rw [List.getElem_drop, decide_eq_true_iff, not_lt]
    rcases Nat.eq_zero_or_pos j with rfl | hpos
    · exact le_refl _
    · exact List.pairwise_iff_getElem.mp hl i (i+j) _ _ (by omega)
  have hfront := List.countP_le_length (p := fun y => decide (rank l[i] < rank y)) (l := l.take i)
  rw [List.length_take] at hfront
  have hsplit : l.countP (fun y => decide (rank l[i] < rank y)) =
      (l.take i).countP (fun y => decide (rank l[i] < rank y))+
        (l.drop i).countP (fun y => decide (rank l[i] < rank y)) := by
    rw [← List.countP_append, List.take_append_drop]
  omega

section Kept

variable {β : Type} {rank : β → ℕ} (std : DescendingSort) {cap : ℕ} (hcap : 0 < cap)
  (p : β → Bool) {xs : List β} {x : β} {n : ℕ}
include hcap

theorem kept_of_few (hx : x ∈ xs) (hp : p x = true)
    (hfew : asHigh rank (fun _ => true) xs x ≤ cap) (hfront : asHigh rank p xs x ≤ n) :
    x ∈ ((std.sort rank (collect rank cap xs)).filter p).take n := by
  obtain ⟨⟨rest, hperm, hrest⟩, hlen, hsorted⟩ := sorted_collect rank std cap hcap xs
  generalize std.sort rank (collect rank cap xs) = out at hperm hrest hlen hsorted ⊢
  have hsize := hperm.length_eq
  rw [List.length_append] at hsize
  have hin : x ∈ out := by
    rcases List.mem_append.mp (hperm.mem_iff.mpr hx) with h | h
    · exact h
    · exfalso
      have hpos := List.length_pos_iff.mpr (List.ne_nil_of_mem h)
      have hall : out.countP (fun y => true && decide (rank x ≤ rank y)) = out.length := by
        rw [List.countP_eq_length]
        intro y hy
        rw [Bool.true_and, decide_eq_true_iff]
        exact hrest x h y hy
      have hself : 0 < rest.countP (fun y => true && decide (rank x ≤ rank y)) :=
        List.countP_pos_iff.mpr ⟨x, h, by simp⟩
      rw [asHigh, ← hperm.countP_eq, List.countP_append, hall] at hfew
      omega
  refine mem_take_sorted (hsorted.filter p) (List.mem_filter.mpr ⟨hin, hp⟩) ?_
  rw [List.countP_filter]
  refine le_trans ?_ hfront
  rw [asHigh, ← hperm.countP_eq, List.countP_append]
  simp only [Bool.and_comm]
  exact Nat.le_add_right _ _

theorem few_of_kept (hx : x ∈ ((std.sort rank (collect rank cap xs)).filter p).take n) :
    x ∈ xs ∧ p x = true ∧ higher rank (fun _ => true) xs x < cap ∧ higher rank p xs x < n := by
  obtain ⟨⟨rest, hperm, hrest⟩, hlen, hsorted⟩ := sorted_collect rank std cap hcap xs
  generalize std.sort rank (collect rank cap xs) = out at hx hperm hrest hlen hsorted
  have htake := higher_take_sorted (hsorted.filter p) hx
  obtain ⟨hout, hp⟩ := List.mem_filter.mp (List.mem_of_mem_take hx)
  have hnone : ∀ q : β → Bool, rest.countP (fun y => q y && decide (rank x < rank y)) = 0 := by
    intro q
    rw [List.countP_eq_zero]
    intro y hy h
    rw [Bool.and_eq_true, decide_eq_true_iff] at h
    exact absurd (hrest y hy x hout) (not_le.mpr h.2)
  have hcount : ∀ q : β → Bool, higher rank q xs x =
      out.countP (fun y => q y && decide (rank x < rank y)) := by
    intro q
    rw [higher, ← hperm.countP_eq, List.countP_append, hnone, Nat.add_zero]
  refine ⟨hperm.mem_iff.mp (List.mem_append_left _ hout), hp, ?_, ?_⟩
  · have hless := List.countP_lt_length_iff (p := fun y => true && decide (rank x < rank y))
      (l := out)
    rw [hcount]
    refine lt_of_lt_of_le (hless.mpr ⟨x, hout, by simp⟩) ?_
    rw [hlen]
    exact Nat.min_le_left _ _
  · rw [hcount]
    rw [List.countP_filter] at htake
    simpa only [Bool.and_comm] using htake

end Kept

end Lib.TopK
