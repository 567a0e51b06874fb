import Mathlib.Data.List.Basic
import Mathlib.Tactic.Common

/-!
# Numbered cycles

A sender splits a table into pieces 1, …, n, each of which announces n. A receiver
that has lost pieces can only use the last cycle it got whole. What has been
received is a list of pieces, the newest first.
-/

set_option autoImplicit false

namespace Lib.Cycles

variable {α : Type*}

structure Piece (α : Type*) where
  total : ℕ
  idx : ℕ
  items : List α

def Counts : List (Piece α) → Prop
  | [] => True
  | p::ps => p.idx = ps.length+1 ∧ Counts ps

instance instDecidableCounts : (ps : List (Piece α)) → Decidable (Counts ps)
  | [] => isTrue trivial
  | p::ps =>
    have := instDecidableCounts ps
    inferInstanceAs (Decidable (p.idx = ps.length+1 ∧ Counts ps))

/-- All pieces of one cycle. -/
def Complete (c : List (Piece α)) : Prop :=
  0 < c.length ∧ Counts c ∧ ∀ p ∈ c, p.total = c.length

instance (c : List (Piece α)) : Decidable (Complete c) :=
  inferInstanceAs (Decidable (_ ∧ _ ∧ _))

/-- The newest complete cycle, or nothing. -/
def lastCycle : List (Piece α) → List (Piece α)
  | [] => []
  | p::ps => if Complete ((p::ps).take p.total) then (p::ps).take p.total else lastCycle ps

/-- Since the last complete cycle no piece has begun a new one or had the number 0. -/
def Settled : List (Piece α) → Prop
  | [] => True
  | p::ps => Complete ((p::ps).take p.total) ∨ 2 ≤ p.idx ∧ Settled ps

instance instDecidableSettled : (ps : List (Piece α)) → Decidable (Settled ps)
  | [] => isTrue trivial
  | p::ps =>
    have := instDecidableSettled ps
    inferInstanceAs (Decidable (Complete ((p::ps).take p.total) ∨ 2 ≤ p.idx ∧ Settled ps))

/-- The newest pieces are numbered k, …, 1, and none of them is announced as the last. -/
def Open (k : ℕ) (ps : List (Piece α)) : Prop :=
  k ≤ ps.length ∧ Counts (ps.take k) ∧ ∀ p ∈ ps.take k, p.idx ≠ p.total

def itemsOf (cap : ℕ) (c : List (Piece α)) : List α := (c.reverse.flatMap Piece.items).take cap

theorem counts_le (ps : List (Piece α)) (h : Counts ps) : ∀ p ∈ ps, p.idx ≤ ps.length := by
  induction ps with
  | nil => simp
  | cons q ps ih =>
    intro p hp
    rcases List.mem_cons.mp hp with rfl | hp
    · exact Nat.le_of_eq h.1
    · exact Nat.le_succ_of_le (ih h.2 p hp)

theorem open_zero (ps : List (Piece α)) : Open 0 ps := by simp [Open, Counts]

theorem open_cons (k : ℕ) (p : Piece α) (ps : List (Piece α)) :
    Open (k+1) (p::ps) ↔ p.idx = k+1 ∧ p.idx ≠ p.total ∧ Open k ps := by
  simp only [Open, List.take_succ_cons, Counts, List.length_cons, List.forall_mem_cons,
    List.length_take, Nat.add_le_add_iff_right]
  constructor
  · rintro ⟨hk, ⟨hidx, hcounts⟩, hlast, hrest⟩
    rw [Nat.min_eq_left hk] at hidx
    exact ⟨hidx, hlast, hk, hcounts, hrest⟩
  · rintro ⟨hidx, hlast, hk, hcounts, hrest⟩
    rw [Nat.min_eq_left hk]
    exact ⟨hk, ⟨hidx, hcounts⟩, hlast, hrest⟩

theorem open_of_complete (p : Piece α) (ps : List (Piece α))
    (h : Complete ((p::ps).take p.total)) :
    p.idx = p.total ∧ 1 ≤ p.idx ∧ Open (p.idx-1) ps := by
  obtain ⟨hpos, hcounts, htotal⟩ := h
  cases hn : p.total with
  | zero => simp [hn] at hpos
  | succ n =>
    rw [hn, List.take_succ_cons] at hcounts htotal
    have hlen := htotal p (by simp)
    rw [hn, List.length_cons] at hlen
    have hidx : p.idx = n+1 := hcounts.1.trans hlen.symm
    have htake : (ps.take n).length = n := by omega
    rw [hidx, Nat.add_sub_cancel]
    refine ⟨rfl, by omega, ?_, hcounts.2, fun q hq => ?_⟩
    · rw [List.length_take] at htake
      omega
    · have hle := counts_le _ hcounts.2 q hq
      have hqt := htotal q (by simp [hq])
      rw [List.length_cons] at hqt
      omega

theorem not_settled_of_open (ps : List (Piece α)) (k : ℕ) (h : Open (k+1) ps) : ¬ Settled ps := by
  induction ps generalizing k with
  | nil => exact absurd h.1 (by simp)
  | cons p ps ih =>
    obtain ⟨hidx, hlast, hopen⟩ := (open_cons k p ps).mp h
    rintro (hcomplete | ⟨htwo, hsettled⟩)
    · exact hlast (open_of_complete p ps hcomplete).1
    · obtain ⟨j, rfl⟩ : ∃ j, k = j+1 := ⟨k-1, by omega⟩
      exact ih j hopen hsettled

/-- A receiver has stored `items` and awaits the piece `next`, 0 when it awaits none.
Numbers stay below `limit`. -/
structure Tracks (cap limit : ℕ) (ps : List (Piece α)) (next : ℕ) (items : List α) : Prop where
  awaits : ∀ k, 1 ≤ k → k+1 < limit → (next = k+1 ↔ Open k ps)
  kept : ∀ k, 1 ≤ k → next = k+1 → items = itemsOf cap (ps.take k)
  settled : Settled ps → items = itemsOf cap (lastCycle ps)

section Receiver

variable {cap limit : ℕ} {ps : List (Piece α)} {next : ℕ} {items : List α}

theorem tracks_nil (hnext : next ≤ 1) : Tracks cap limit ([] : List (Piece α)) next [] := by
  constructor
  · intro k hk _
    exact iff_of_false (by omega) (fun h => Nat.not_succ_le_zero 0 (Nat.le_trans hk h.1))
  · intro k hk hn
    omega
  · intro _
    simp [lastCycle, itemsOf]

theorem tracks_start (p : Piece α) (hp : p.idx = 1) :
    Tracks cap limit (p::ps) (if p.idx = p.total then 0 else 2) (p.items.take cap) := by
  have hitems : p.items.take cap = itemsOf cap [p] := by simp [itemsOf]
  constructor
  · intro k hk _
    obtain ⟨j, rfl⟩ : ∃ j, k = j+1 := ⟨k-1, by omega⟩
    rw [open_cons]
    by_cases hlast : p.idx = p.total
    · rw [if_pos hlast]
      exact iff_of_false (by omega) (fun h => h.2.1 hlast)
    · rw [if_neg hlast]
      constructor
      · intro h
        obtain rfl : j = 0 := by omega
        exact ⟨hp, hlast, open_zero ps⟩
      · intro h
        omega
  · intro k hk hn
    split at hn
    · omega
    · obtain rfl : k = 1 := by omega
      rw [hitems, List.take_succ_cons, List.take_zero]
  · intro h
    have hcomplete : Complete ((p::ps).take p.total) := h.resolve_right (by omega)
    have htotal := (open_of_complete p ps hcomplete).1
    rw [lastCycle, if_pos hcomplete, ← htotal, hp, List.take_succ_cons, List.take_zero, hitems]

theorem items_cons (p : Piece α) (c : List (Piece α)) :
    (itemsOf cap c++p.items).take cap = itemsOf cap (p::c) := by
  simp only [itemsOf, List.reverse_cons, List.flatMap_append, List.flatMap_cons, List.flatMap_nil,
    List.append_nil, List.take_append, List.take_take, Nat.min_self, List.length_take]
  congr 2
  omega

theorem tracks_next (h : Tracks cap limit ps next items) (hlimit : next < limit)
    (p : Piece α) (hp : p.idx = next) (htwo : 2 ≤ next) :
    Tracks cap limit (p::ps) (if p.idx = p.total then 0 else (p.idx+1) % limit)
      ((items++p.items).take cap) := by
  obtain ⟨k, rfl⟩ : ∃ k, next = k+2 := ⟨next-2, by omega⟩
  have hopen : Open (k+1) ps := (h.awaits (k+1) (by omega) hlimit).mp rfl
  have hitems : (items++p.items).take cap = itemsOf cap ((p::ps).take (k+2)) := by
    rw [h.kept (k+1) (by omega) rfl, items_cons, List.take_succ_cons]
  constructor
  · intro j hj hjl
    obtain ⟨i, rfl⟩ : ∃ i, j = i+1 := ⟨j-1, by omega⟩
    rw [open_cons]
    by_cases hlast : p.idx = p.total
    · rw [if_pos hlast]
      exact iff_of_false (by omega) (fun h => h.2.1 hlast)
    · rw [if_neg hlast]
      have hmod : (p.idx+1) % limit = i+1+1 ↔ p.idx = i+1 := by
        by_cases hwrap : p.idx+1 < limit
        · rw [Nat.mod_eq_of_lt hwrap]
          omega
        · have hfull : p.idx+1 = limit := by omega
          rw [hfull, Nat.mod_self]
          omega
      rw [hmod]
      constructor
      · intro hi
        obtain rfl : i = k+1 := by omega
        exact ⟨hi, hlast, hopen⟩
      · exact fun hi => hi.1
  · intro j hj hn
    split at hn
    · omega
    · by_cases hwrap : p.idx+1 < limit
      · rw [Nat.mod_eq_of_lt hwrap] at hn
        obtain rfl : j = k+2 := by omega
        exact hitems
      · have hfull : p.idx+1 = limit := by omega
        rw [hfull, Nat.mod_self] at hn
        omega
  · intro hs
    rcases hs with hcomplete | ⟨-, hsettled⟩
    · have htotal := (open_of_complete p ps hcomplete).1
      rw [hitems, lastCycle, if_pos hcomplete, ← htotal, hp]
    · exact absurd hsettled (not_settled_of_open ps k hopen)

theorem tracks_zero (p : Piece α) (hp : p.idx = 0) (hnext : next ≤ 1) :
    Tracks cap limit (p::ps) next items := by
  constructor
  · intro k hk _
    obtain ⟨j, rfl⟩ : ∃ j, k = j+1 := ⟨k-1, by omega⟩
    rw [open_cons]
    exact iff_of_false (by omega) (fun h => by omega)
  · intro k hk hn
    omega
  · rintro (hcomplete | ⟨htwo, -⟩)
    · have := (open_of_complete p ps hcomplete).2.1
      omega
    · omega

theorem tracks_drop (h : Tracks cap limit ps next items) (p : Piece α) (hp : p.idx < limit)
    (hne : p.idx ≠ next) (hone : p.idx ≠ 1) : Tracks cap limit (p::ps) 0 items := by
  have hawaited (k : ℕ) (hk : p.idx = k+1) : ¬ Open k ps := by
    intro hopen
    exact hne (hk.trans ((h.awaits k (by omega) (by omega)).mpr hopen).symm)
  have hincomplete : ¬ Complete ((p::ps).take p.total) := by
    intro hcomplete
    obtain ⟨-, hpos, hopen⟩ := open_of_complete p ps hcomplete
    exact hawaited (p.idx-1) (by omega) hopen
  constructor
  · intro k hk _
    obtain ⟨j, rfl⟩ : ∃ j, k = j+1 := ⟨k-1, by omega⟩
    rw [open_cons]
    exact iff_of_false (by omega) (fun hopen => hawaited j hopen.1 hopen.2.2)
  · intro k hk hn
    omega
  · intro hs
    rw [h.settled (hs.resolve_left hincomplete).2, lastCycle, if_neg hincomplete]

end Receiver

end Lib.Cycles
