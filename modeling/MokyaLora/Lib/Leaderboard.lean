import MokyaLora.Lib.Ranked
import MokyaLora.Lib.TopK

/-!
# Ranked lists without repetitions

A list of bounded capacity takes the elements of a stream in descending order of rank. An
element whose key is there already is passed over, even where its rank is higher. So the list
is a best selection of the keys only where each key comes first with its highest rank.
-/

set_option autoImplicit false

namespace Lib.Leaderboard
open Lib.Ranked Lib.TopK

variable {α κ : Type*} (rank : α → ℕ) (key : α → κ) (cap : ℕ)

def insert (out : List α) (x : α) : List α :=
  if out.length < cap then shiftIn (fun p => decide (rank p < rank x)) out x
  else match out.getLast? with
    | some last =>
      if rank last < rank x then shiftIn (fun p => decide (rank p < rank x)) out.dropLast x
      else out
    | none => out

def offer [DecidableEq κ] (out : List α) (x : α) : List α :=
  if out.any (fun p => decide (key p = key x)) then out else insert rank cap out x

def board [DecidableEq κ] (xs : List α) : List α := xs.foldl (offer rank key cap) []

/-- The first element of its key in a stream. -/
def First (xs : List α) (x : α) : Prop := ∃ pre post, xs = pre++x::post ∧ key x ∉ pre.map key

structure Ranks (out : List α) : Prop where
  nodup : (out.map key).Nodup
  sorted : out.Pairwise (fun a b => rank b ≤ rank a)
  length : out.length ≤ cap

/-- What is kept has its true rank, and what is not ranks no higher. -/
structure Keeps (truth : κ → ℕ) (seen out : List α) : Prop where
  ranks : Ranks rank key cap out
  known : ∀ x ∈ out, x ∈ seen ∧ rank x = truth (key x)
  omitted : ∀ y ∈ seen, key y ∉ out.map key →
    out.length = cap ∧ ∀ x ∈ out, truth (key y) ≤ rank x

variable {rank key cap}

theorem shift_sorted (out : List α) (x : α) (h : out.Pairwise (fun a b => rank b ≤ rank a)) :
    (shiftIn (fun p => decide (rank p < rank x)) out x).Pairwise (fun a b => rank b ≤ rank a) := by
  induction out using List.reverseRecOn with
  | nil => exact List.pairwise_singleton _ x
  | append_singleton out y ih =>
    obtain ⟨hout, -, hy⟩ := List.pairwise_append.mp h
    rw [shiftIn_concat]
    by_cases hw : rank y < rank x
    · rw [if_pos (decide_eq_true hw), List.pairwise_append]
      refine ⟨ih hout, List.pairwise_singleton _ y, fun a ha b hb => ?_⟩
      rw [List.mem_singleton.mp hb]
      rcases (mem_shiftIn _ _ _ _).mp ha with rfl | ha
      · exact le_of_lt hw
      · exact hy a ha y (List.mem_singleton_self y)
    · rw [if_neg (by simpa using hw), List.pairwise_append]
      refine ⟨hout, by simpa using not_lt.mp hw, fun a ha b hb => ?_⟩
      have hay := hy a ha y (List.mem_singleton_self y)
      simp only [List.mem_cons, List.not_mem_nil, or_false] at hb
      rcases hb with rfl | rfl
      · exact hay
      · exact le_trans (not_lt.mp hw) hay

theorem ranks_shift (out : List α) (x : α) (h : Ranks rank key cap out) (hx : key x ∉ out.map key)
    (hroom : out.length < cap) :
    Ranks rank key cap (shiftIn (fun p => decide (rank p < rank x)) out x) := by
  have hperm := (shiftIn_perm (fun p => decide (rank p < rank x)) out x).map key
  refine ⟨?_, shift_sorted out x h.sorted, ?_⟩
  · rw [hperm.nodup_iff, List.map_cons]
    exact h.nodup.cons hx
  · rw [shiftIn_length]
    exact hroom

theorem ranks_drop (out : List α) (h : Ranks rank key cap out) : Ranks rank key cap out.dropLast :=
  ⟨h.nodup.sublist (out.dropLast_sublist.map key), h.sorted.sublist out.dropLast_sublist,
    le_trans out.dropLast_sublist.length_le h.length⟩

theorem insert_cases (hcap : 0 < cap) (out : List α) (x : α) (h : Ranks rank key cap out) :
    (out.length < cap ∧
      insert rank cap out x = shiftIn (fun p => decide (rank p < rank x)) out x) ∨
    (out.length = cap ∧ ∃ front last, out = front++[last] ∧ (∀ p ∈ out, rank last ≤ rank p) ∧
      ((rank x ≤ rank last ∧ insert rank cap out x = out) ∨
        (rank last < rank x ∧
          insert rank cap out x = shiftIn (fun p => decide (rank p < rank x)) front x))) := by
  by_cases hroom : out.length < cap
  · exact .inl ⟨hroom, by rw [insert, if_pos hroom]⟩
  · have hlen : out.length = cap := le_antisymm h.length (not_lt.mp hroom)
    have hne : out ≠ [] := List.length_pos_iff.mp (hlen ▸ hcap)
    obtain ⟨front, last, rfl⟩ := (List.eq_nil_or_concat' out).resolve_left hne
    have hlast : ∀ p ∈ front++[last], rank last ≤ rank p := by
      intro p hp
      rcases List.mem_append.mp hp with hp | hp
      · exact (List.pairwise_append.mp h.sorted).2.2 p hp last (List.mem_singleton_self last)
      · rw [List.mem_singleton.mp hp]
    refine .inr ⟨hlen, front, last, rfl, hlast, ?_⟩
    rw [insert, if_neg hroom, List.getLast?_concat, List.dropLast_concat]
    by_cases hbetter : rank last < rank x
    · exact .inr ⟨hbetter, if_pos hbetter⟩
    · exact .inl ⟨not_lt.mp hbetter, if_neg hbetter⟩

variable {truth : κ → ℕ} {seen out : List α}

theorem keeps_skip (x : α) (h : Keeps rank key cap truth seen out)
    (hx : key x ∈ out.map key ∨ (out.length = cap ∧ ∀ p ∈ out, truth (key x) ≤ rank p)) :
    Keeps rank key cap truth (seen++[x]) out := by
  refine ⟨h.ranks, fun p hp => ?_, fun y hy hout => ?_⟩
  · obtain ⟨hseen, hrank⟩ := h.known p hp
    exact ⟨List.mem_append_left _ hseen, hrank⟩
  · rcases List.mem_append.mp hy with hy | hy
    · exact h.omitted y hy hout
    · rw [List.mem_singleton.mp hy] at hout ⊢
      exact hx.resolve_left hout

theorem keeps_shift (front : List α) (x : α) (hrank : rank x = truth (key x))
    (hranks : Ranks rank key cap (shiftIn (fun p => decide (rank p < rank x)) front x))
    (hfront : ∀ p ∈ front, p ∈ seen ∧ rank p = truth (key p))
    (homitted : ∀ y ∈ seen, key y ∉ front.map key → front.length+1 = cap ∧
      truth (key y) ≤ rank x ∧ ∀ p ∈ front, truth (key y) ≤ rank p) :
    Keeps rank key cap truth (seen++[x])
      (shiftIn (fun p => decide (rank p < rank x)) front x) := by
  have hmem := mem_shiftIn (fun p => decide (rank p < rank x)) front x
  refine ⟨hranks, fun p hp => ?_, fun y hy hout => ?_⟩
  · rcases (hmem p).mp hp with rfl | hp
    · exact ⟨by simp, hrank⟩
    · exact ⟨List.mem_append_left _ (hfront p hp).1, (hfront p hp).2⟩
  · have hne : key y ≠ key x := by
      intro heq
      exact hout (heq ▸ List.mem_map_of_mem ((hmem x).mpr (.inl rfl)))
    have hyf : key y ∉ front.map key := by
      intro hin
      obtain ⟨p, hp, heq⟩ := List.mem_map.mp hin
      exact hout (heq ▸ List.mem_map_of_mem ((hmem p).mpr (.inr hp)))
    have hyseen : y ∈ seen := by
      rcases List.mem_append.mp hy with hy | hy
      · exact hy
      · exact absurd (congrArg key (List.mem_singleton.mp hy)) hne
    obtain ⟨hlen, hyx, hall⟩ := homitted y hyseen hyf
    refine ⟨by rw [shiftIn_length, hlen], fun p hp => ?_⟩
    rcases (hmem p).mp hp with rfl | hp
    · exact hyx
    · exact hall p hp

theorem keeps_replace (front : List α) (last x : α) (h : Keeps rank key cap truth seen (front++[last]))
    (hfull : (front++[last]).length = cap) (hdup : key x ∉ (front++[last]).map key)
    (hrank : rank x = truth (key x)) (hlast : ∀ p ∈ front, rank last ≤ rank p)
    (hbetter : rank last < rank x) : Keeps rank key cap truth (seen++[x])
      (shiftIn (fun p => decide (rank p < rank x)) front x) := by
  have hranks : Ranks rank key cap front := by
    have hdrop := ranks_drop _ h.ranks
    rwa [List.dropLast_concat] at hdrop
  have hlen : front.length+1 = cap := by
    rw [← hfull, List.length_append, List.length_singleton]
  have hmem : ∀ p ∈ front, p ∈ front++[last] := fun p hp => List.mem_append_left _ hp
  have hin : last ∈ front++[last] := List.mem_append_right _ (List.mem_singleton_self last)
  have hnew : key x ∉ front.map key := by
    rw [List.map_append, List.mem_append, not_or] at hdup
    exact hdup.1
  refine keeps_shift front x hrank (ranks_shift front x hranks hnew (by omega))
    (fun p hp => h.known p (hmem p hp)) ?_
  intro y hy hnot
  -- what is left out now is the last element, or was left out before
  have hyl : truth (key y) ≤ rank last := by
    by_cases hyo : key y ∈ (front++[last]).map key
    · rw [List.map_append, List.mem_append] at hyo
      have hkey : key y = key last := List.mem_singleton.mp (hyo.resolve_left hnot)
      rw [hkey, (h.known last hin).2]
    · exact (h.omitted y hy hyo).2 last hin
  exact ⟨hlen, le_trans hyl (le_of_lt hbetter), fun p hp => le_trans hyl (hlast p hp)⟩

theorem keeps_offer [DecidableEq κ] (hcap : 0 < cap) (x : α)
    (h : Keeps rank key cap truth seen out)
    (hle : rank x ≤ truth (key x)) (hfirst : key x ∉ seen.map key → rank x = truth (key x)) :
    Keeps rank key cap truth (seen++[x])
      (offer rank key cap out x) := by
  rw [offer]
  by_cases hdup : key x ∈ out.map key
  · rw [if_pos (by simpa using hdup)]
    exact keeps_skip x h (.inl hdup)
  · rw [if_neg (by simpa using hdup)]
    -- an element that was there and left again is no better than what is kept
    have hseen : key x ∈ seen.map key → out.length = cap ∧ ∀ p ∈ out, truth (key x) ≤ rank p := by
      intro hin
      obtain ⟨y, hy, heq⟩ := List.mem_map.mp hin
      exact heq ▸ h.omitted y hy (heq ▸ hdup)
    rcases insert_cases hcap out x h.ranks with
      ⟨hroom, hinsert⟩ | ⟨hfull, front, last, hout, hlast, ⟨hworse, hinsert⟩ | ⟨hbetter, hinsert⟩⟩
    · rw [hinsert]
      have hnew : key x ∉ seen.map key := fun hin => absurd (hseen hin).1 (Nat.ne_of_lt hroom)
      refine keeps_shift out x (hfirst hnew) (ranks_shift out x h.ranks hdup hroom) h.known ?_
      intro y hy hnot
      exact absurd (h.omitted y hy hnot).1 (Nat.ne_of_lt hroom)
    · rw [hinsert]
      refine keeps_skip x h (.inr ?_)
      by_cases hin : key x ∈ seen.map key
      · exact hseen hin
      · exact ⟨hfull, fun p hp => (hfirst hin) ▸ le_trans hworse (hlast p hp)⟩
    · have hnew : key x ∉ seen.map key := by
        intro hin
        have hmem : last ∈ out := hout ▸ List.mem_append_right _ (List.mem_singleton_self last)
        exact absurd (le_trans hle ((hseen hin).2 last hmem)) (not_le.mpr hbetter)
      have hlast' : ∀ p ∈ front, rank last ≤ rank p :=
        fun p hp => hlast p (hout ▸ List.mem_append_left _ hp)
      rw [hinsert]
      exact keeps_replace front last x (hout ▸ h) (hout ▸ hfull) (hout ▸ hdup) (hfirst hnew) hlast'
        hbetter

theorem first_concat (xs : List α) (x y : α) (h : First key (xs++[x]) y) :
    First key xs y ∨ (y = x ∧ key x ∉ xs.map key) := by
  obtain ⟨pre, post, heq, hnew⟩ := h
  rcases List.eq_nil_or_concat' post with rfl | ⟨post, z, rfl⟩
  · obtain ⟨rfl, hxy⟩ := List.append_inj' heq rfl
    obtain rfl := List.singleton_inj.mp hxy
    exact .inr ⟨rfl, hnew⟩
  · rw [← List.cons_append, ← List.append_assoc] at heq
    exact .inl ⟨pre, post, (List.append_inj' heq rfl).1, hnew⟩

section Run

variable [DecidableEq κ]

theorem board_concat (xs : List α) (x : α) :
    board rank key cap (xs++[x]) = offer rank key cap (board rank key cap xs) x := by
  rw [board, List.foldl_append]
  rfl

/-- A stream in which each key comes first with its true rank. -/
theorem keeps_board (hcap : 0 < cap) (xs : List α) (hle : ∀ x ∈ xs, rank x ≤ truth (key x))
    (hfirst : ∀ x, First key xs x → rank x = truth (key x)) :
    Keeps rank key cap truth xs (board rank key cap xs) := by
  induction xs using List.reverseRecOn with
  | nil =>
    exact ⟨⟨List.nodup_nil, List.Pairwise.nil, Nat.zero_le _⟩,
      fun _ hx => absurd hx List.not_mem_nil, fun _ hy => absurd hy List.not_mem_nil⟩
  | append_singleton xs x ih =>
    rw [board_concat]
    refine keeps_offer hcap x (ih (fun y hy => hle y (List.mem_append_left _ hy)) ?_)
      (hle x (by simp)) (fun hnew => hfirst x ⟨xs, [], rfl, hnew⟩)
    rintro y ⟨pre, post, rfl, hnew⟩
    exact hfirst y ⟨pre, post++[x], by rw [List.append_assoc, List.cons_append], hnew⟩

theorem board_small (xs : List α) (hroom : xs.length ≤ cap) :
    (board rank key cap xs).length ≤ xs.length ∧ (∀ y ∈ board rank key cap xs, y ∈ xs) ∧
      ∀ x, First key xs x → x ∈ board rank key cap xs := by
  induction xs using List.reverseRecOn with
  | nil =>
    refine ⟨le_rfl, fun _ hy => hy, ?_⟩
    rintro x ⟨pre, post, heq, -⟩
    exact absurd heq (by simp)
  | append_singleton xs x ih =>
    rw [List.length_append, List.length_singleton] at hroom ⊢
    obtain ⟨hlen, hsub, hfirst⟩ := ih (by omega)
    rw [board_concat, offer, insert, if_pos (lt_of_le_of_lt hlen hroom)]
    by_cases hdup : key x ∈ (board rank key cap xs).map key
    · rw [if_pos (by simpa using hdup)]
      refine ⟨le_trans hlen (Nat.le_succ _), fun y hy => List.mem_append_left _ (hsub y hy), ?_⟩
      intro y hy
      rcases first_concat xs x y hy with hy | ⟨-, hnew⟩
      · exact hfirst y hy
      · obtain ⟨p, hp, heq⟩ := List.mem_map.mp hdup
        exact absurd (heq ▸ List.mem_map_of_mem (hsub p hp)) hnew
    · rw [if_neg (by simpa using hdup)]
      refine ⟨by rw [shiftIn_length]; omega, fun y hy => ?_, fun y hy => ?_⟩
      · rcases (mem_shiftIn _ _ _ _).mp hy with rfl | hy
        · simp
        · exact List.mem_append_left _ (hsub y hy)
      · rw [mem_shiftIn]
        exact (first_concat xs x y hy).symm.imp And.left (hfirst y)

theorem keeps_best {out : List α} (ks : List κ) (hnodup : ks.Nodup)
    (hmem : ∀ k, k ∈ ks ↔ k ∈ seen.map key) (h : Keeps rank key cap truth seen out) :
    Best Prod.snd Prod.fst cap (ks.map (fun k => (k, truth k)))
      (out.map (fun x => (key x, rank x))) := by
  have hkeys : ∀ k ∈ out.map key, k ∈ ks := by
    intro k hk
    obtain ⟨x, hx, rfl⟩ := List.mem_map.mp hk
    exact (hmem _).mpr (List.mem_map_of_mem (h.known x hx).1)
  have homit : ∀ k ∈ ks, k ∉ out.map key → out.length = cap ∧ ∀ x ∈ out, truth k ≤ rank x := by
    intro k hk hout
    obtain ⟨y, hy, rfl⟩ := List.mem_map.mp ((hmem k).mp hk)
    exact h.omitted y hy hout
  constructor
  case mem =>
    intro p hp
    obtain ⟨x, hx, rfl⟩ := List.mem_map.mp hp
    have hk := hkeys (key x) (List.mem_map_of_mem hx)
    exact List.mem_map.mpr ⟨key x, hk, by rw [(h.known x hx).2]⟩
  case nodup =>
    rw [List.map_map]
    exact h.ranks.nodup
  case sorted =>
    rw [List.pairwise_map]
    exact h.ranks.sorted
  case length =>
    have hlen := (List.Nodup.subperm h.ranks.nodup hkeys).length_le
    have hcap := h.ranks.length
    rw [List.length_map] at hlen
    rw [List.length_map, List.length_map]
    by_cases hfull : out.length = cap
    · omega
    · have hall : ks.Subperm (out.map key) := by
        apply List.Nodup.subperm hnodup
        intro k hk
        by_contra hout
        exact hfull (homit k hk hout).1
      have hge := hall.length_le
      rw [List.length_map] at hge
      omega
  case omitted =>
    intro p hp hout x hx
    obtain ⟨k, hk, rfl⟩ := List.mem_map.mp hp
    obtain ⟨y, hy, rfl⟩ := List.mem_map.mp hx
    refine (homit k hk ?_).2 y hy
    intro hin
    obtain ⟨z, hz, rfl⟩ := List.mem_map.mp hin
    exact hout (List.mem_map.mpr ⟨z, hz, by rw [(h.known z hz).2]⟩)

/-- The list is a best selection of the keys at every capacity exactly where each key comes
first with its highest rank. -/
theorem best_iff (ks : List κ) (hnodup : ks.Nodup) (xs : List α)
    (hmem : ∀ k, k ∈ ks ↔ k ∈ xs.map key) (hle : ∀ x ∈ xs, rank x ≤ truth (key x)) :
    (∀ cap, 0 < cap → Best Prod.snd Prod.fst cap (ks.map (fun k => (k, truth k)))
      ((board rank key cap xs).map (fun x => (key x, rank x)))) ↔
    ∀ x, First key xs x → rank x = truth (key x) := by
  constructor
  · intro h x hx
    have hpos : 0 < xs.length := by
      obtain ⟨pre, post, rfl, -⟩ := hx
      rw [List.length_append, List.length_cons]
      omega
    have hkept : x ∈ board rank key xs.length xs := (board_small xs le_rfl).2.2 x hx
    have hin := (h xs.length hpos).mem _ (List.mem_map_of_mem hkept)
    obtain ⟨k, -, heq⟩ := List.mem_map.mp hin
    obtain ⟨rfl, hr⟩ := Prod.mk.inj heq
    exact hr.symm
  · intro hfirst cap hcap
    exact keeps_best ks hnodup hmem (keeps_board hcap xs hle hfirst)

end Run

end Lib.Leaderboard
