import MokyaLora.ImePages
import MokyaLora.Lib.Least
import Mathlib.Data.Finset.Card
import Mathlib.Data.Finset.Image

/-!
# The grid of candidates

`UP` and `DOWN` go by what the display shows: the view takes the positions of the cells from
the layout, and moves the selection of the input method to the closest cell of the row above
or below.
-/

set_option autoImplicit false

namespace MokyaLora.Ime
open Lib.Fields Lib.Least

def candMax : ℕ := 40

def noRow : ℤ := 32767

structure ImeView where
  cellX : ℕ → ℤ
  cellY : ℕ → ℤ
  cellValid : ℕ
  selected : ℕ
  candTotal : ℕ

namespace ImeView

variable (v : ImeView)

/-- The row that is nearest in the direction, after some cells; -1 is none. -/
def targetY (dir : ℤ) : ℕ → ℤ
  | 0 => -1
  | i+1 =>
    let t := targetY dir i
    let y := v.cellY i
    if dir < 0 ∧ y < v.cellY v.selected then if t < 0 ∨ t < y then y else t
    else if 0 < dir ∧ v.cellY v.selected < y then if t < 0 ∨ y < t then y else t
    else t

def distance (i : ℕ) : ℤ :=
  let d := v.cellX i-v.cellX v.selected
  if d < 0 then -d else d

def bestCell (targetY : ℤ) : ℕ → Option (ℕ × ℤ)
  | 0 => none
  | i+1 =>
    if v.cellY i ≠ targetY then bestCell targetY i
    else match bestCell targetY i with
      | none => some (i, v.distance i)
      | some (bestIdx, bestDist) =>
        if v.distance i < bestDist then some (i, v.distance i) else some (bestIdx, bestDist)

def findRowNeighbour (dir : ℤ) : Option ℕ :=
  if v.cellValid ≤ 1 then none
  else if v.cellValid ≤ v.selected then none
  else
    let t := v.targetY dir v.cellValid
    if t < 0 then none else (v.bestCell t v.cellValid).map Prod.fst

end ImeView

def keyDir (kc : Keycode) : ℤ :=
  if kc = mokyaKeyUp then -1 else if kc = mokyaKeyDown then 1 else 0

/-- The cell that a key goes to: without a neighbour the next or the previous one. -/
def ImeView.target (v : ImeView) (dir : ℤ) : ℕ :=
  match v.findRowNeighbour dir with
  | some i => i
  | none =>
    if 0 < dir then (v.selected+1)%v.candTotal else (v.selected+v.candTotal-1)%v.candTotal

def imeViewApply (env : Env) (v : ImeView) (ev : KeyEvent) (s : ImeLogic) : ImeLogic :=
  if ¬ ev.pressed then s
  else if s.symPickerOpen then s
  else if v.candTotal = 0 then s
  else if keyDir ev.keycode = 0 then s
  else s.setSelected env (v.target (keyDir ev.keycode))

def cellText (s : ImeLogic) (i : ℕ) : Bytes :=
  if s.symPickerOpen then kSymPickerCell.getD i []
  else match s.candidates[i]? with
    | some p => p.1.word
    | none => []

def imeViewRefresh (place : ℕ → ℤ × ℤ) (s : ImeLogic) : ImeView :=
  let total := if s.symPickerOpen then kSymPickerCells else s.candidates.length
  { cellX := fun i => if (cellText s i).headD 0 ≠ 0 then (place i).1 else 0
    cellY := fun i => if (cellText s i).headD 0 ≠ 0 then (place i).2 else noRow
    cellValid := min total candMax
    selected := if s.symPickerOpen then s.symPickerSel else s.selected
    candTotal := total }

namespace ImeView

variable (v : ImeView)

def Ahead (dir : ℤ) (i : ℕ) : Prop := dir*v.cellY v.selected < dir*v.cellY i

instance (dir : ℤ) : DecidablePred (v.Ahead dir) := fun _ => by
  unfold Ahead
  infer_instance

/-- The first of the closest cells in the next row. -/
structure Neighbour (dir : ℤ) (i : ℕ) : Prop where
  shown : v.selected < v.cellValid
  valid : i < v.cellValid
  ahead : v.Ahead dir i
  row : ∀ j < v.cellValid, v.Ahead dir j → dir*v.cellY i ≤ dir*v.cellY j
  near : ∀ j < v.cellValid, v.cellY j = v.cellY i → v.distance i ≤ v.distance j
  first : ∀ j < i, v.cellY j = v.cellY i → v.distance i < v.distance j

variable {v} {dir : ℤ}

theorem target_y_scan (hdir : dir = 1 ∨ dir = -1) (n : ℕ) (hpos : ∀ i < n, 0 ≤ v.cellY i) :
    v.targetY dir n =
      ((scan (v.Ahead dir) (fun i => dir*v.cellY i) n).map v.cellY).getD (-1) := by
  induction n with
  | zero => rfl
  | succ n ih =>
    have hn := hpos n (Nat.lt_succ_self n)
    rw [targetY, ih (fun i hi => hpos i (Nat.lt_succ_of_lt hi)), scan]
    cases hs : scan (v.Ahead dir) (fun i => dir*v.cellY i) n with
    | none =>
      by_cases ha : v.Ahead dir n
      · simp only [if_pos ha, Option.map_none, Option.map_some, Option.getD_none, Option.getD_some]
        rw [Ahead] at ha
        rcases hdir with rfl | rfl <;> split_ifs <;> omega
      · simp only [if_neg ha, Option.map_none, Option.getD_none]
        rw [Ahead] at ha
        rcases hdir with rfl | rfl <;> split_ifs <;> omega
    | some b =>
      have hb := hpos b (Nat.lt_succ_of_lt (scan_some hs).lt)
      by_cases ha : v.Ahead dir n ∧ dir*v.cellY n < dir*v.cellY b
      · simp only [if_pos ha, Option.map_some, Option.getD_some]
        rw [Ahead] at ha
        rcases hdir with rfl | rfl <;> split_ifs <;> omega
      · simp only [if_neg ha, Option.map_some, Option.getD_some]
        rw [Ahead] at ha
        rcases hdir with rfl | rfl <;> split_ifs <;> omega

theorem best_cell_scan (y : ℤ) (n : ℕ) :
    v.bestCell y n =
      (scan (fun i => v.cellY i = y) v.distance n).map (fun i => (i, v.distance i)) := by
  induction n with
  | zero => rfl
  | succ n ih =>
    rw [bestCell, ih, scan]
    by_cases hy : v.cellY n = y
    · rw [if_neg (not_not.mpr hy)]
      cases scan (fun i => v.cellY i = y) v.distance n with
      | none =>
        dsimp only
        rw [if_pos hy]
        rfl
      | some b =>
        simp only [Option.map_some, hy, true_and]
        split <;> rfl
    · rw [if_pos hy]
      cases scan (fun i => v.cellY i = y) v.distance n with
      | none =>
        dsimp only
        rw [if_neg hy]
      | some b => simp only [hy, false_and, if_false]

theorem not_ahead_selected : ¬ v.Ahead dir v.selected := lt_irrefl _

/-- The loops are scans, of the rows and then of one row. -/
theorem find_row_neighbour_scan (hdir : dir = 1 ∨ dir = -1)
    (hpos : ∀ i < v.cellValid, 0 ≤ v.cellY i) (hshown : v.selected < v.cellValid) :
    v.findRowNeighbour dir = (scan (v.Ahead dir) (fun i => dir*v.cellY i) v.cellValid).bind
      (fun b => scan (fun i => v.cellY i = v.cellY b) v.distance v.cellValid) := by
  have htarget := target_y_scan hdir v.cellValid hpos
  rw [findRowNeighbour]
  cases hs : scan (v.Ahead dir) (fun i => dir*v.cellY i) v.cellValid with
  | none =>
    rw [hs, Option.map_none, Option.getD_none] at htarget
    have hneg : (-1 : ℤ) < 0 := by decide
    rw [if_neg (Nat.not_le.mpr hshown), htarget, if_pos hneg, ite_self]
    rfl
  | some b =>
    have hb := scan_some hs
    have hother : b ≠ v.selected := by
      rintro rfl
      exact not_ahead_selected hb.holds
    have hmany : ¬ v.cellValid ≤ 1 := by
      have := hb.lt
      omega
    rw [hs, Option.map_some, Option.getD_some] at htarget
    rw [if_neg hmany, if_neg (Nat.not_le.mpr hshown), htarget, if_neg (not_lt_of_ge (hpos b hb.lt)),
      best_cell_scan, Option.map_map, Option.bind_some]
    exact Option.map_id'

theorem find_row_neighbour_hidden (h : v.cellValid ≤ v.selected) :
    v.findRowNeighbour dir = none := by
  rw [findRowNeighbour, if_pos h, ite_self]

theorem same_row (hdir : dir = 1 ∨ dir = -1) (i j : ℕ) :
    dir*v.cellY i = dir*v.cellY j ↔ v.cellY j = v.cellY i := by
  rcases hdir with rfl | rfl <;> omega

theorem find_row_neighbour_iff (hdir : dir = 1 ∨ dir = -1)
    (hpos : ∀ i < v.cellValid, 0 ≤ v.cellY i) (i : ℕ) :
    v.findRowNeighbour dir = some i ↔ v.Neighbour dir i := by
  by_cases hshown : v.selected < v.cellValid
  · rw [find_row_neighbour_scan hdir hpos hshown, Option.bind_eq_some_iff]
    refine ⟨?_, fun h => ?_⟩
    · rintro ⟨b, hs, hi⟩
      have hb := scan_some hs
      have hi := scan_some hi
      have hkey := (same_row hdir b i).mpr hi.holds
      refine ⟨hshown, hi.lt, ?_, fun j hj ha => ?_, fun j hj hy => ?_, fun j hj hy => ?_⟩
      · rw [Ahead, ← hkey]
        exact hb.holds
      · rw [← hkey]
        exact hb.le j hj ha
      · exact hi.le j hj (hy.trans hi.holds)
      · exact hi.before j hj (hy.trans hi.holds)
    · cases hs : scan (v.Ahead dir) (fun i => dir*v.cellY i) v.cellValid with
      | none => exact absurd h.ahead (scan_none hs i h.valid)
      | some b =>
        have hb := scan_some hs
        have hy := (same_row hdir b i).mp
          (le_antisymm (hb.le i h.valid h.ahead) (h.row b hb.lt hb.holds))
        refine ⟨b, rfl, (scan_iff _ _).mpr ⟨h.valid, hy, fun j hj hj' => ?_, fun j hj hj' => ?_⟩⟩
        · exact h.near j hj (hj'.trans hy.symm)
        · exact h.first j hj (hj'.trans hy.symm)
  · rw [find_row_neighbour_hidden (Nat.not_lt.mp hshown)]
    exact ⟨(fun h => by cases h), fun h => absurd h.shown hshown⟩

theorem find_row_neighbour_none (hdir : dir = 1 ∨ dir = -1)
    (hpos : ∀ i < v.cellValid, 0 ≤ v.cellY i) (hshown : v.selected < v.cellValid) :
    v.findRowNeighbour dir = none ↔ ∀ i < v.cellValid, ¬ v.Ahead dir i := by
  rw [find_row_neighbour_scan hdir hpos hshown]
  cases hs : scan (v.Ahead dir) (fun i => dir*v.cellY i) v.cellValid with
  | none => exact ⟨fun _ => scan_none hs, fun _ => rfl⟩
  | some b =>
    have hb := scan_some hs
    refine ⟨fun h => ?_, fun h => absurd hb.holds (h b hb.lt)⟩
    rw [Option.bind_some] at h
    exact absurd rfl (scan_none h b hb.lt)

def rowsAhead (v : ImeView) (dir : ℤ) : Finset ℤ :=
  ((Finset.range v.cellValid).image v.cellY).filter (fun y => dir*v.cellY v.selected < dir*y)

theorem rows_neighbour (hdir : dir = 1 ∨ dir = -1) {i : ℕ} (h : v.Neighbour dir i) :
    (rowsAhead { v with selected := i } dir) = (v.rowsAhead dir).erase (v.cellY i) := by
  have hahead := h.ahead
  rw [Ahead] at hahead
  ext y
  simp only [rowsAhead, Finset.mem_filter, Finset.mem_image, Finset.mem_range, Finset.mem_erase]
  constructor
  · rintro ⟨⟨j, hj, rfl⟩, hlt⟩
    refine ⟨fun heq => ?_, ⟨j, hj, rfl⟩, lt_trans hahead hlt⟩
    rw [heq] at hlt
    exact lt_irrefl _ hlt
  · rintro ⟨hne, ⟨j, hj, rfl⟩, hlt⟩
    refine ⟨⟨j, hj, rfl⟩, lt_of_le_of_ne (h.row j hj hlt) fun heq => ?_⟩
    exact hne ((same_row hdir i j).mp heq)

theorem rows_card (hdir : dir = 1 ∨ dir = -1) {i : ℕ} (h : v.Neighbour dir i) :
    (rowsAhead { v with selected := i } dir).card+1 = (v.rowsAhead dir).card := by
  rw [rows_neighbour hdir h]
  refine Finset.card_erase_add_one ?_
  exact Finset.mem_filter.mpr ⟨Finset.mem_image_of_mem _ (Finset.mem_range.mpr h.valid), h.ahead⟩

end ImeView

def Vertical (dir : ℤ) (ev : KeyEvent) : Prop :=
  ev.pressed = true ∧ (ev.keycode = mokyaKeyUp ∧ dir = -1 ∨ ev.keycode = mokyaKeyDown ∧ dir = 1)

/-- The input method gets the key first, then the view, which was refreshed before. -/
def viewKey (env : Env) (place : ℕ → ℤ × ℤ) (s : ImeLogic) (ev : KeyEvent) : ImeLogic :=
  imeViewApply env (imeViewRefresh place s) ev (s.processKey env ev).1

/-- A grid on the display: candidates, no picker, and positions inside the container. -/
structure Grid (place : ℕ → ℤ × ℤ) (s : ImeLogic) : Prop where
  inv : Inv s
  candidates : s.candidates ≠ []
  closed : s.symPickerOpen = false
  inside : ∀ i, 0 ≤ (place i).2

section Grid

variable (env : Env) {place : ℕ → ℤ × ℤ} {s : ImeLogic} {dir : ℤ} {ev : KeyEvent}

theorem vertical_dir (h : Vertical dir ev) :
    keyDir ev.keycode = dir ∧ (dir = 1 ∨ dir = -1) := by
  obtain ⟨-, ⟨hk, rfl⟩ | ⟨hk, rfl⟩⟩ := h
  · rw [hk]
    exact ⟨rfl, .inr rfl⟩
  · rw [hk]
    exact ⟨rfl, .inl rfl⟩

theorem dispatch_nav (hr : Routed s ev) (hm : ev.keycode ≠ mokyaKeyMode)
    (hd : ev.keycode ≠ mokyaKeyDel) {nav : NavDir} (hn : ImeLogic.navDir ev.keycode = some nav) :
    s.dispatchKey env ev = s.handleDpad env nav := by
  obtain ⟨hkey, hsym, hpressed, hclosed⟩ := hr
  rw [ImeLogic.dispatchKey, if_neg hkey, if_neg hsym, hpressed, hclosed, if_neg (by decide),
    if_neg (by decide), if_neg hm, if_neg hd, hn]

theorem vertical_consumed (hg : Grid place s) (h : Vertical dir ev) :
    s.processKey env ev = (s.stampNow ev.nowMs, true) := by
  have hhas : (s.stampNow ev.nowMs).hasCandidates = true := by
    rw [ImeLogic.hasCandidates, ImeLogic.stampNow, List.isEmpty_eq_false_iff.mpr hg.candidates]
    rfl
  obtain ⟨hp, hk⟩ := h
  have hkey : ev.keycode = mokyaKeyUp ∨ ev.keycode = mokyaKeyDown := hk.imp And.left And.left
  have hrouted : Routed (s.stampNow ev.nowMs) ev := by
    refine ⟨?_, ?_, hp, hg.closed⟩ <;> rcases hkey with hk | hk <;> rw [hk] <;> decide
  have hmode : ev.keycode ≠ mokyaKeyMode := by rcases hkey with hk | hk <;> rw [hk] <;> decide
  have hdel : ev.keycode ≠ mokyaKeyDel := by rcases hkey with hk | hk <;> rw [hk] <;> decide
  rw [ImeLogic.processKey]
  rcases hkey with hk | hk
  · have hup : ImeLogic.navDir ev.keycode = some .up := by rw [hk]; decide
    exact (dispatch_nav env hrouted hmode hdel hup).trans (if_pos hhas)
  · have hdown : ImeLogic.navDir ev.keycode = some .down := by rw [hk]; decide
    exact (dispatch_nav env hrouted hmode hdel hdown).trans (if_pos hhas)

theorem refresh_inside (hg : Grid place s) (i : ℕ) : 0 ≤ (imeViewRefresh place s).cellY i := by
  simp only [imeViewRefresh]
  split
  · exact hg.inside i
  · decide

theorem refresh_closed (hg : Grid place s) :
    (imeViewRefresh place s).candTotal = s.candidates.length ∧
      (imeViewRefresh place s).selected = s.selected ∧
      (imeViewRefresh place s).cellValid = min s.candidates.length candMax := by
  simp only [imeViewRefresh, hg.closed]
  exact ⟨rfl, rfl, rfl⟩

theorem target_lt (hg : Grid place s) (hdir : dir = 1 ∨ dir = -1) :
    (imeViewRefresh place s).target dir < s.candidates.length := by
  obtain ⟨htotal, hsel, hvalid⟩ := refresh_closed hg
  have hpos := List.length_pos_iff.mpr hg.candidates
  rw [ImeView.target, htotal]
  cases hf : (imeViewRefresh place s).findRowNeighbour dir with
  | some i =>
    have hi := ((ImeView.find_row_neighbour_iff hdir
      (fun i _ => refresh_inside hg i) i).mp hf).valid
    rw [hvalid] at hi
    exact Nat.lt_of_lt_of_le hi (Nat.min_le_left _ _)
  | none =>
    dsimp only
    split <;> exact Nat.mod_lt _ hpos

theorem set_selected_moves {t : ImeLogic} (i : ℕ) (hi : i < t.candidates.length) :
    (t.setSelected env i).candidates = t.candidates ∧
      (t.setSelected env i).symPickerOpen = t.symPickerOpen ∧
      (t.setSelected env i).selected = i := by
  have hne : t.candidates ≠ [] := List.ne_nil_of_length_pos (Nat.zero_lt_of_lt hi)
  have hclamp : ImeLogic.clampIndex i t.candidates.length = i := by
    rw [ImeLogic.clampIndex, if_neg (by omega), Int.toNat_natCast]
    omega
  rw [ImeLogic.setSelected, hclamp]
  by_cases hsame : t.selected = i
  · rw [if_pos (.inr hsame)]
    exact ⟨rfl, rfl, hsame⟩
  · rw [if_neg (fun h => h.elim hne hsame)]
    have hnoted := log_noted env { t with selected := i } .compositionChanged
    exact ⟨hnoted.keeps ImeLogic.candidates (fun _ _ _ => rfl),
      hnoted.keeps ImeLogic.symPickerOpen (fun _ _ _ => rfl),
      hnoted.keeps ImeLogic.selected (fun _ _ _ => rfl)⟩

theorem refresh_moved {t : ImeLogic} (hs : s.symPickerOpen = false) (ht : t.symPickerOpen = false)
    (hc : t.candidates = s.candidates) :
    imeViewRefresh place t = { imeViewRefresh place s with selected := t.selected } := by
  have htext : cellText t = cellText s := by
    funext i
    rw [cellText, cellText, hs, ht, hc]
  simp only [imeViewRefresh, hs, ht, hc, htext]
  rfl

theorem view_key_moves (hg : Grid place s) (h : Vertical dir ev) :
    Grid place (viewKey env place s ev) ∧
      (viewKey env place s ev).candidates = s.candidates ∧
      imeViewRefresh place (viewKey env place s ev) =
        { imeViewRefresh place s with selected := (imeViewRefresh place s).target dir } := by
  obtain ⟨hkey, hdir⟩ := vertical_dir h
  have hlt := target_lt hg hdir
  have hview : viewKey env place s ev = (s.stampNow ev.nowMs).setSelected env
      ((imeViewRefresh place s).target dir) := by
    have hopen : ¬ (s.stampNow ev.nowMs).symPickerOpen = true := by
      rw [show (s.stampNow ev.nowMs).symPickerOpen = false from hg.closed]
      decide
    have htotal : (imeViewRefresh place s).candTotal ≠ 0 := by
      rw [(refresh_closed hg).1]
      exact fun h => hg.candidates (List.length_eq_zero_iff.mp h)
    have hmoves : dir ≠ 0 := by rcases hdir with rfl | rfl <;> decide
    rw [viewKey, vertical_consumed env hg h, imeViewApply, if_neg (not_not.mpr h.1), if_neg hopen,
      if_neg htotal, hkey, if_neg hmoves]
  obtain ⟨hcand, hopen, hsel⟩ := set_selected_moves env (t := s.stampNow ev.nowMs) _ hlt
  have hinv := inv_set_selected env _ (inv_stamp s hg.inv ev.nowMs)
    ((imeViewRefresh place s).target dir)
  rw [hview]
  have hclosed : ((s.stampNow ev.nowMs).setSelected env
      ((imeViewRefresh place s).target dir)).symPickerOpen = false := hopen.trans hg.closed
  refine ⟨⟨hinv, ?_, hclosed, hg.inside⟩, hcand, ?_⟩
  · rw [hcand]
    exact hg.candidates
  · rw [refresh_moved hg.closed hclosed hcand, hsel]

def rowsLeft (place : ℕ → ℤ × ℤ) (s : ImeLogic) (dir : ℤ) : ℕ :=
  ((imeViewRefresh place s).rowsAhead dir).card

theorem rows_left_succ (hg : Grid place s) (h : Vertical dir ev)
    (hshown : s.selected < candMax) (hrows : 0 < rowsLeft place s dir) :
    rowsLeft place (viewKey env place s ev) dir+1 = rowsLeft place s dir ∧
      (viewKey env place s ev).selected < candMax := by
  obtain ⟨hkey, hdir⟩ := vertical_dir h
  obtain ⟨htotal, hsel, hvalid⟩ := refresh_closed hg
  have hinside := fun i (_ : i < (imeViewRefresh place s).cellValid) => refresh_inside hg i
  have hlt := hg.inv.selected hg.candidates
  have hcell : (imeViewRefresh place s).selected < (imeViewRefresh place s).cellValid := by
    rw [hsel, hvalid]
    omega
  cases hf : (imeViewRefresh place s).findRowNeighbour dir with
  | none =>
    have hnone := (ImeView.find_row_neighbour_none hdir hinside hcell).mp hf
    obtain ⟨y, hy⟩ := Finset.card_pos.mp hrows
    obtain ⟨hmem, hahead⟩ := Finset.mem_filter.mp hy
    obtain ⟨i, hi, rfl⟩ := Finset.mem_image.mp hmem
    exact absurd hahead (hnone i (Finset.mem_range.mp hi))
  | some i =>
    have hn := (ImeView.find_row_neighbour_iff hdir hinside i).mp hf
    have htarget : (imeViewRefresh place s).target dir = i := by rw [ImeView.target, hf]
    obtain ⟨hg', -, hview⟩ := view_key_moves env hg h
    rw [htarget] at hview
    refine ⟨?_, ?_⟩
    · rw [rowsLeft, rowsLeft, hview]
      exact ImeView.rows_card hdir hn
    · have hmoved := congrArg ImeView.selected hview
      have hi := hn.valid
      rw [(refresh_closed hg').2.1] at hmoved
      rw [hmoved]
      rw [hvalid] at hi
      exact Nat.lt_of_lt_of_le hi (Nat.min_le_right _ _)

theorem rows_left_run (evs : List KeyEvent) (hg : Grid place s) (h : ∀ ev ∈ evs, Vertical dir ev)
    (hshown : s.selected < candMax) (hrows : evs.length ≤ rowsLeft place s dir) :
    Grid place (evs.foldl (viewKey env place) s) ∧
      (evs.foldl (viewKey env place) s).candidates = s.candidates ∧
      (evs.foldl (viewKey env place) s).selected < candMax ∧
      rowsLeft place (evs.foldl (viewKey env place) s) dir+evs.length = rowsLeft place s dir := by
  induction evs generalizing s with
  | nil => exact ⟨hg, rfl, hshown, rfl⟩
  | cons ev evs ih =>
    have hev := h ev List.mem_cons_self
    rw [List.length_cons] at hrows
    obtain ⟨hleft, hsel⟩ := rows_left_succ env hg hev hshown (by omega)
    obtain ⟨hg', hcand, -⟩ := view_key_moves env hg hev
    obtain ⟨hgrid, hcands, hsels, hcount⟩ := ih hg'
      (fun e he => h e (List.mem_cons_of_mem ev he)) hsel (by omega)
    rw [List.foldl_cons, List.length_cons]
    exact ⟨hgrid, hcands.trans hcand, hsels, by omega⟩

end Grid

def threeWide (i : ℕ) : ℤ × ℤ := (30*(i%3 : ℕ), 20*(i/3 : ℕ))

def downKey : KeyEvent := ⟨mokyaKeyDown, true, 10, 0⟩

end MokyaLora.Ime
