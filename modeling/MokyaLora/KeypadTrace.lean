import MokyaLora.Lib.Debounce
import MokyaLora.KeypadScan

/-!
# What the scanner emits

The state of a key is a function of its readings: the debounced level, and for how many
scans the key has been down. From these follows what is emitted for the key.
-/

set_option autoImplicit false

namespace MokyaLora.Keypad
open Lib.Debounce Lib.Sweep
open MokyaLora.Ime (Keycode mokyaKeyNone keyFlagLongPress)

def debouncedKey (bs : List Bool) : Bool := debounced kpDebounceThreshold bs

/-- The scans since the key went down, the one of the commit included. -/
def downFor (bs : List Bool) : ℕ := upFor kpDebounceThreshold bs

def emission (kc : Keycode) (b : Bool) (bs : List Bool) : List (Bool × UInt8) :=
  if keycodeDefersPress kc then
    if debouncedKey (b::bs) then
      if downFor (b::bs) = kpLongPressTicks+1 then [(true, keyFlagLongPress)] else []
    else if debouncedKey bs then
      if downFor bs ≤ kpLongPressTicks then [(true, 0), (false, 0)] else [(false, keyFlagLongPress)]
    else []
  else if debouncedKey (b::bs) ≠ debouncedKey bs then [(debouncedKey (b::bs), 0)]
  else []

def emissions (kc : Keycode) : List Bool → List (Bool × UInt8)
  | [] => []
  | b::bs => emissions kc bs++emission kc b bs

def openPress (kc : Keycode) (bs : List Bool) : Bool :=
  if keycodeDefersPress kc then decide (kpLongPressTicks < downFor bs) else debouncedKey bs

def tap (flags : UInt8) : List (Bool × UInt8) := [(true, flags), (false, flags)]

theorem down_for_cons (b : Bool) (bs : List Bool) :
    downFor (b::bs) = if debouncedKey (b::bs) then downFor bs+1 else 0 := rfl

theorem down_for_pos (bs : List Bool) : 0 < downFor bs ↔ debouncedKey bs = true :=
  up_for_pos kpDebounceThreshold bs

theorem down_for_up (bs : List Bool) (h : debouncedKey bs = false) : downFor bs = 0 := by
  by_contra hne
  exact Bool.false_ne_true (h.symm.trans ((down_for_pos bs).mp (Nat.pos_of_ne_zero hne)))

/-- The flags of a press: none, or for a slot key those of a long press. -/
def PressFlags (kc : Keycode) (f : UInt8) : Prop :=
  f = 0 ∨ (keycodeDefersPress kc = true ∧ f = keyFlagLongPress)

theorem paired_slot (kc : Keycode) (b : Bool) (bs : List Bool)
    (hslot : keycodeDefersPress kc = true) : ∃ taps : List UInt8, (∀ f ∈ taps, PressFlags kc f) ∧
      (if openPress kc bs then [(true, keyFlagLongPress)] else [])++emission kc b bs =
        taps.flatMap tap++if openPress kc (b::bs) then [(true, keyFlagLongPress)] else [] := by
  simp only [emission, openPress, if_pos hslot]
  rw [down_for_cons]
  by_cases hdown : debouncedKey (b::bs) = true
  · rw [if_pos hdown, if_pos hdown]
    refine ⟨[], by simp, ?_⟩
    by_cases hlong : kpLongPressTicks < downFor bs
    · simp [hlong, show downFor bs ≠ kpLongPressTicks by omega, Nat.lt_succ_of_lt hlong]
    · by_cases heq : downFor bs = kpLongPressTicks
      · simp [heq]
      · simp [hlong, heq]
        omega
  · rw [if_neg hdown, if_neg hdown]
    by_cases hwas : debouncedKey bs = true
    · by_cases hlong : downFor bs ≤ kpLongPressTicks
      · exact ⟨[0], by simp [PressFlags], by simp [hwas, hlong, Nat.not_lt.mpr hlong, tap]⟩
      · exact ⟨[keyFlagLongPress], by simp [PressFlags, hslot],
          by simp [hwas, hlong, Nat.not_le.mp hlong, tap]⟩
    · have hzero := down_for_up bs (Bool.eq_false_iff.mpr hwas)
      exact ⟨[], by simp, by simp [hwas, hzero]⟩

theorem paired_direct (kc : Keycode) (b : Bool) (bs : List Bool)
    (hslot : ¬ keycodeDefersPress kc = true) : ∃ taps : List UInt8, (∀ f ∈ taps, PressFlags kc f) ∧
      (if openPress kc bs then [(true, 0)] else [])++emission kc b bs =
        taps.flatMap tap++if openPress kc (b::bs) then [(true, 0)] else [] := by
  simp only [emission, openPress, if_neg hslot]
  cases hdown : debouncedKey (b::bs) with
  | true =>
    cases hwas : debouncedKey bs with
    | true => exact ⟨[], by simp, by simp⟩
    | false => exact ⟨[], by simp, by simp⟩
  | false =>
    cases hwas : debouncedKey bs with
    | true => exact ⟨[0], by simp [PressFlags], by simp [tap]⟩
    | false => exact ⟨[], by simp, by simp⟩

/-- What is emitted is a list of presses and releases in turn, with one flag for both, and
a press at the end if the key is still open. -/
theorem emissions_paired (kc : Keycode) (bs : List Bool) : ∃ taps : List UInt8,
    (∀ f ∈ taps, f = 0 ∨ (keycodeDefersPress kc = true ∧ f = keyFlagLongPress)) ∧
    emissions kc bs = taps.flatMap tap++if openPress kc bs then
      [(true, if keycodeDefersPress kc then keyFlagLongPress else 0)] else [] := by
  induction bs with
  | nil => exact ⟨[], by simp, by simp [emissions, openPress, downFor, upFor, debouncedKey, debounced]⟩
  | cons b bs ih =>
    obtain ⟨taps, hflags, htaps⟩ := ih
    have hstep : ∃ more : List UInt8, (∀ f ∈ more, PressFlags kc f) ∧
        (if openPress kc bs then
          [(true, if keycodeDefersPress kc then keyFlagLongPress else 0)] else [])++emission kc b bs =
        more.flatMap tap++if openPress kc (b::bs) then
          [(true, if keycodeDefersPress kc then keyFlagLongPress else 0)] else [] := by
      by_cases hslot : keycodeDefersPress kc = true
      · rw [if_pos hslot]
        exact paired_slot kc b bs hslot
      · rw [if_neg hslot]
        exact paired_direct kc b bs hslot
    obtain ⟨more, hmore, hadd⟩ := hstep
    refine ⟨taps++more, ?_, ?_⟩
    · intro f hf
      exact (List.mem_append.mp hf).elim (hflags f) (hmore f)
    · rw [emissions, htaps, List.append_assoc, hadd, List.flatMap_append, List.append_assoc]

structure Debounces (bs : List Bool) (x : Cell) : Prop where
  stable : x.stable = debouncedKey bs
  count : x.count = streak (debouncedKey bs) bs
  pending : x.pending = if x.count = 0 then x.stable else !x.stable

def lpPhase (down : ℕ) : LpState :=
  if down = 0 then .idle else if down ≤ kpLongPressTicks then .pressPending else .longEmitted

/-- The timer of the cell of a slot key is the time since the commit. -/
structure Timed (bs : List Bool) (tick : UInt32) (x : Cell) : Prop where
  lpState : x.lpState = lpPhase (downFor bs)
  lpPressTick : x.lpState = .pressPending → x.lpPressTick+UInt32.ofNat (downFor bs) = tick

structure Follows (kc : Keycode) (bs : List Bool) (tick : UInt32) (k : Key) : Prop where
  debounces : Debounces bs k.cell
  timed : keycodeDefersPress kc = true → Timed bs tick k.cell
  shown : k.shown = debouncedKey bs
  held : k.held = openPress kc bs
  strokes : k.strokes = emissions kc bs

section
variable {bs : List Bool} {x : Cell} (b : Bool)

theorem track_eq (h : Debounces bs x) : x.track b =
    { x with pending := b, count := if b = debouncedKey bs then 0 else x.count+1 } := by
  have hlt : x.count < kpDebounceThreshold := by
    rw [h.count]
    exact streak_lt kpDebounceThreshold bs (by decide)
  rw [kpDebounceThreshold] at hlt
  have hpending := h.pending
  rw [Cell.track, ← h.stable]
  by_cases hb : b = x.stable
  · rw [if_neg (not_not.mpr hb), if_pos hb, hb]
  · rw [if_pos hb, if_neg hb]
    by_cases hcount : x.count = 0
    · rw [if_pos hcount] at hpending
      rw [if_neg (fun heq => hb (heq.trans hpending)), hcount]
    · rw [if_neg hcount, ← Bool.eq_not_of_ne hb] at hpending
      rw [if_pos hpending.symm, if_pos (by omega), hpending]

theorem commits_iff (h : Debounces bs x) : x.Commits b ↔
    b ≠ debouncedKey bs ∧ kpDebounceThreshold ≤ streak (debouncedKey bs) bs+1 := by
  rw [Cell.Commits, track_eq b h, h.stable, h.count]
  constructor
  · rintro ⟨hb, hcount⟩
    exact ⟨hb, by simpa only [if_neg hb] using hcount⟩
  · rintro ⟨hb, hcount⟩
    exact ⟨hb, by simpa only [if_neg hb] using hcount⟩

theorem debounced_commit (h : Debounces bs x) (hc : x.Commits b) : debouncedKey (b::bs) = b :=
  (debounced_cons _ b bs (by decide)).trans (if_pos ((commits_iff b h).mp hc))

theorem debounced_keep (h : Debounces bs x) (hc : ¬ x.Commits b) :
    debouncedKey (b::bs) = debouncedKey bs :=
  (debounced_cons _ b bs (by decide)).trans (if_neg (fun hand => hc ((commits_iff b h).mpr hand)))

theorem commit_debounces (h : Debounces bs x) (hc : x.Commits b) :
    Debounces (b::bs) ((x.track b).commit b) := by
  have hlevel := debounced_commit b h hc
  rw [track_eq b h]
  constructor
  · exact hlevel.symm
  · rw [hlevel, streak_cons, if_pos rfl]
    rfl
  · rfl

theorem keep_debounces (h : Debounces bs x) (hc : ¬ x.Commits b) :
    Debounces (b::bs) (x.track b) := by
  have hlevel := debounced_keep b h hc
  rw [track_eq b h]
  constructor
  · exact h.stable.trans hlevel.symm
  · rw [hlevel, streak_cons, h.count]
  · by_cases hb : b = debouncedKey bs
    · simp [hb, h.stable]
    · simp [h.stable, Bool.eq_not_of_ne hb]

end

section
variable {kc : Keycode} {bs : List Bool} {tick : UInt32} {k : Key} (b : Bool)

theorem timer_direct (hslot : ¬ keycodeDefersPress kc = true) : k.timer kc tick = k :=
  if_neg (fun h => h.1 (.inr (Bool.eq_false_iff.mpr hslot)))

theorem drive_direct (x : Cell) (hslot : ¬ keycodeDefersPress kc = true) :
    x.drive kc tick b = x :=
  if_pos (.inr (Bool.eq_false_iff.mpr hslot))

theorem open_direct (bs : List Bool) (hslot : ¬ keycodeDefersPress kc = true) :
    openPress kc bs = debouncedKey bs := if_neg hslot

theorem emission_direct (bs : List Bool) (hslot : ¬ keycodeDefersPress kc = true) :
    emission kc b bs = if debouncedKey (b::bs) ≠ debouncedKey bs then
      [(debouncedKey (b::bs), 0)] else [] := if_neg hslot

theorem follows_direct (hnone : kc ≠ mokyaKeyNone) (hslot : ¬ keycodeDefersPress kc = true)
    (h : Follows kc bs tick k) :
    Follows kc (b::bs) (tick+1) ((k.pass kc tick b).timer kc tick) := by
  have hopen := h.held
  rw [open_direct bs hslot] at hopen
  rw [timer_direct hslot, Key.pass]
  by_cases hc : k.cell.Commits b
  · have hlevel := debounced_commit b h.debounces hc
    have hchange := ((commits_iff b h.debounces).mp hc).1
    rw [if_pos hc, drive_direct b _ hslot, Cell.commitEvents, if_neg hnone,
      if_pos (Bool.eq_false_iff.mpr hslot), Key.push_all_eq]
    constructor
    · exact commit_debounces b h.debounces hc
    · exact fun hs => absurd hs hslot
    · exact hlevel.symm
    · rw [open_direct _ hslot]
      exact hlevel.symm
    · rw [emissions, emission_direct b bs hslot, hlevel, if_pos hchange, ← h.strokes]
      simp
  · have hlevel := debounced_keep b h.debounces hc
    rw [if_neg hc]
    constructor
    · exact keep_debounces b h.debounces hc
    · exact fun hs => absurd hs hslot
    · exact h.shown.trans hlevel.symm
    · rw [open_direct _ hslot, hlevel]
      exact hopen
    · rw [emissions, emission_direct b bs hslot, hlevel, if_neg (not_not.mpr rfl), List.append_nil]
      exact h.strokes

theorem open_slot (bs : List Bool) (hslot : keycodeDefersPress kc = true) :
    openPress kc bs = decide (kpLongPressTicks < downFor bs) := if_pos hslot

theorem drive_slot (x : Cell) (hnone : kc ≠ mokyaKeyNone) (hslot : keycodeDefersPress kc = true) :
    x.drive kc tick b = if b then { x with lpState := .pressPending, lpPressTick := tick }
      else { x with lpState := .idle } := by
  apply if_neg
  rintro (hkc | hkc)
  · exact hnone hkc
  · exact Bool.false_ne_true (hkc.symm.trans hslot)

theorem expires_slot (x : Cell) (hnone : kc ≠ mokyaKeyNone)
    (hslot : keycodeDefersPress kc = true) : x.Expires kc tick ↔
      x.lpState = .pressPending ∧ kpLongPressTicks ≤ (tick-x.lpPressTick).toNat := by
  apply and_iff_right
  rintro (hkc | hkc)
  · exact hnone hkc
  · exact Bool.false_ne_true (hkc.symm.trans hslot)

theorem pending_held (h : Timed bs tick k.cell) (hp : k.cell.lpState = .pressPending) :
    (tick-k.cell.lpPressTick).toNat = downFor bs := by
  have hdown : downFor bs ≤ kpLongPressTicks := by
    have hphase := h.lpState
    rw [hp, lpPhase] at hphase
    by_contra hlt
    rw [if_neg (by omega), if_neg hlt] at hphase
    exact LpState.noConfusion hphase
  have htick := h.lpPressTick hp
  rw [← htick, UInt32.add_comm, UInt32.add_sub_cancel, UInt32.toNat_ofNat']
  apply Nat.mod_eq_of_lt
  exact lt_of_le_of_lt hdown (by decide)

theorem follows_press (hnone : kc ≠ mokyaKeyNone) (hslot : keycodeDefersPress kc = true)
    (h : Follows kc bs tick k) (hc : k.cell.Commits true) :
    Follows kc (true::bs) (tick+1) ((k.pass kc tick true).timer kc tick) := by
  have hlevel := debounced_commit true h.debounces hc
  have hup : debouncedKey bs = false := by
    simpa using ((commits_iff true h.debounces).mp hc).1
  have hzero := down_for_up bs hup
  have hdown : downFor (true::bs) = 1 := by
    rw [down_for_cons, if_pos hlevel, hzero]
  have hpass : k.pass kc tick true = { k with
      cell := { (k.cell.track true).commit true with lpState := .pressPending, lpPressTick := tick }
      shown := true } := by
    rw [Key.pass, if_pos hc, drive_slot true _ hnone hslot, if_pos rfl, Cell.commitEvents,
      if_neg hnone, if_neg (by simp [hslot]), if_pos rfl]
    rfl
  rw [hpass, Key.timer, if_neg]
  · have hcell := commit_debounces true h.debounces hc
    constructor
    · exact ⟨hcell.stable, hcell.count, hcell.pending⟩
    · intro _
      constructor
      · rw [hdown]
        rfl
      · intro _
        rw [hdown]
        rfl
    · exact hlevel.symm
    · rw [h.held, open_slot _ hslot, open_slot _ hslot, hdown, hzero]
      rfl
    · rw [emissions, emission, if_pos hslot, if_pos hlevel, hdown, if_neg (by decide),
        List.append_nil]
      exact h.strokes
  · rw [expires_slot _ hnone hslot]
    rintro ⟨-, hheld⟩
    rw [UInt32.sub_self] at hheld
    exact absurd hheld (by decide)

theorem follows_release (hnone : kc ≠ mokyaKeyNone) (hslot : keycodeDefersPress kc = true)
    (h : Follows kc bs tick k) (hc : k.cell.Commits false) :
    Follows kc (false::bs) (tick+1) ((k.pass kc tick false).timer kc tick) := by
  have hlevel := debounced_commit false h.debounces hc
  have hwas : debouncedKey bs = true := by
    simpa using ((commits_iff false h.debounces).mp hc).1
  have hdown : downFor (false::bs) = 0 := down_for_up _ hlevel
  have hphase := (h.timed hslot).lpState
  have hpos := (down_for_pos bs).mpr hwas
  have hemit : emission kc false bs = if downFor bs ≤ kpLongPressTicks then
      [(true, 0), (false, 0)] else [(false, keyFlagLongPress)] := by
    rw [emission, if_pos hslot, hlevel, if_neg Bool.false_ne_true, if_pos hwas]
  have hevents : ((k.cell.track false).commitEvents kc false) = emission kc false bs := by
    rw [Cell.commitEvents, if_neg hnone, if_neg (by simp [hslot]), if_neg Bool.false_ne_true,
      track_eq false h.debounces, hemit, hphase, lpPhase, if_neg (Nat.pos_iff_ne_zero.mp hpos)]
    by_cases hlong : downFor bs ≤ kpLongPressTicks
    · rw [if_pos hlong, if_pos hlong]
    · rw [if_neg hlong, if_neg hlong]
  have hmask : (emission kc false bs).map (fun p => (p.1, p.2 &&& 0x3F)) = emission kc false bs ∧
      (emission kc false bs).getLast?.map Prod.fst = some false := by
    rw [hemit]
    by_cases hlong : downFor bs ≤ kpLongPressTicks
    · rw [if_pos hlong]
      decide
    · rw [if_neg hlong]
      decide
  have hpass : k.pass kc tick false =
      { cell := { (k.cell.track false).commit false with lpState := .idle }
        shown := false
        held := false
        strokes := k.strokes++emission kc false bs } := by
    rw [Key.pass, if_pos hc, drive_slot false _ hnone hslot, if_neg Bool.false_ne_true, hevents,
      Key.push_all_eq, hmask.1, hmask.2]
    rfl
  rw [hpass, Key.timer, if_neg]
  · have hcell := commit_debounces false h.debounces hc
    constructor
    · exact ⟨hcell.stable, hcell.count, hcell.pending⟩
    · intro _
      constructor
      · rw [hdown]
        rfl
      · exact fun hp => LpState.noConfusion hp
    · exact hlevel.symm
    · rw [open_slot _ hslot, hdown]
      rfl
    · rw [emissions, h.strokes]
  · rw [expires_slot _ hnone hslot]
    exact fun hp => LpState.noConfusion hp.1

theorem keep_down (h : Debounces bs k.cell) (hc : ¬ k.cell.Commits b) :
    downFor (b::bs) = if debouncedKey bs = true then downFor bs+1 else 0 := by
  rw [down_for_cons, debounced_keep b h hc]

theorem keep_emission (hslot : keycodeDefersPress kc = true) (h : Debounces bs k.cell)
    (hc : ¬ k.cell.Commits b) : emission kc b bs =
      if downFor bs = kpLongPressTicks then [(true, keyFlagLongPress)] else [] := by
  rw [emission, if_pos hslot, debounced_keep b h hc, keep_down b h hc]
  by_cases hdown : debouncedKey bs = true
  · rw [if_pos hdown, if_pos hdown]
    simp only [Nat.add_right_cancel_iff]
  · rw [if_neg hdown, if_neg hdown, down_for_up bs (Bool.eq_false_iff.mpr hdown)]
    rfl

theorem keep_expires (hnone : kc ≠ mokyaKeyNone) (hslot : keycodeDefersPress kc = true)
    (h : Debounces bs k.cell) (htimed : Timed bs tick k.cell) :
    (k.cell.track b).Expires kc tick ↔ downFor bs = kpLongPressTicks := by
  rw [expires_slot _ hnone hslot, track_eq b h]
  dsimp only
  constructor
  · rintro ⟨hp, hheld⟩
    rw [pending_held htimed hp] at hheld
    rw [htimed.lpState, lpPhase] at hp
    split_ifs at hp
    omega
  · intro hexp
    have hpending : k.cell.lpState = .pressPending := by
      rw [htimed.lpState, hexp]
      rfl
    rw [pending_held htimed hpending, hexp]
    exact ⟨hpending, le_refl _⟩

theorem follows_expires (hnone : kc ≠ mokyaKeyNone) (hslot : keycodeDefersPress kc = true)
    (h : Follows kc bs tick k) (hc : ¬ k.cell.Commits b) (hexp : downFor bs = kpLongPressTicks) :
    Follows kc (b::bs) (tick+1) ((k.pass kc tick b).timer kc tick) := by
  have hlevel := debounced_keep b h.debounces hc
  have hcell := keep_debounces b h.debounces hc
  have hdown : debouncedKey bs = true := (down_for_pos bs).mp (by rw [hexp]; decide)
  have hnext : downFor (b::bs) = kpLongPressTicks+1 := by
    rw [keep_down b h.debounces hc, if_pos hdown, hexp]
  rw [Key.pass, if_neg hc, Key.timer,
    if_pos ((keep_expires b hnone hslot h.debounces (h.timed hslot)).mpr hexp), Key.push_all_eq]
  constructor
  · exact ⟨hcell.stable, hcell.count, hcell.pending⟩
  · intro _
    constructor
    · rw [hnext]
      rfl
    · exact fun hp => LpState.noConfusion hp
  · exact h.shown.trans hlevel.symm
  · rw [open_slot _ hslot, hnext]
    rfl
  · rw [emissions, keep_emission b hslot h.debounces hc, if_pos hexp, h.strokes.symm]
    rfl

theorem keep_timed (h : Debounces bs k.cell) (htimed : Timed bs tick k.cell)
    (hc : ¬ k.cell.Commits b) (hexp : downFor bs ≠ kpLongPressTicks) :
    Timed (b::bs) (tick+1) (k.cell.track b) := by
  have hnext := keep_down b h hc
  rw [track_eq b h]
  by_cases hdown : debouncedKey bs = true
  · have hpos := (down_for_pos bs).mpr hdown
    rw [if_pos hdown] at hnext
    constructor
    · rw [htimed.lpState, hnext, lpPhase, lpPhase]
      split_ifs <;> first | rfl | omega
    · intro hp
      rw [hnext, ← htimed.lpPressTick hp, UInt32.ofNat_add, UInt32.add_assoc]
      rfl
  · have hidle : k.cell.lpState = .idle := by
      rw [htimed.lpState, down_for_up bs (Bool.eq_false_iff.mpr hdown)]
      rfl
    rw [if_neg hdown] at hnext
    constructor
    · rw [hidle, hnext]
      rfl
    · intro hp
      exact LpState.noConfusion (hidle.symm.trans hp)

theorem follows_wait (hnone : kc ≠ mokyaKeyNone) (hslot : keycodeDefersPress kc = true)
    (h : Follows kc bs tick k) (hc : ¬ k.cell.Commits b) (hexp : downFor bs ≠ kpLongPressTicks) :
    Follows kc (b::bs) (tick+1) ((k.pass kc tick b).timer kc tick) := by
  have htimed := h.timed hslot
  rw [Key.pass, if_neg hc, Key.timer,
    if_neg (mt (keep_expires b hnone hslot h.debounces htimed).mp hexp)]
  constructor
  · exact keep_debounces b h.debounces hc
  · exact fun _ => keep_timed b h.debounces htimed hc hexp
  · exact h.shown.trans (debounced_keep b h.debounces hc).symm
  · rw [h.held, open_slot _ hslot, open_slot _ hslot, keep_down b h.debounces hc, decide_eq_decide]
    split
    · omega
    · rename_i hdown
      rw [down_for_up bs (Bool.eq_false_iff.mpr hdown)]
  · rw [emissions, keep_emission b hslot h.debounces hc, if_neg hexp, List.append_nil]
    exact h.strokes

theorem follows_keep (hnone : kc ≠ mokyaKeyNone) (hslot : keycodeDefersPress kc = true)
    (h : Follows kc bs tick k) (hc : ¬ k.cell.Commits b) :
    Follows kc (b::bs) (tick+1) ((k.pass kc tick b).timer kc tick) := by
  by_cases hexp : downFor bs = kpLongPressTicks
  · exact follows_expires b hnone hslot h hc hexp
  · exact follows_wait b hnone hslot h hc hexp

theorem scan_follows (hnone : kc ≠ mokyaKeyNone) (h : Follows kc bs tick k) :
    Follows kc (b::bs) (tick+1) ((k.pass kc tick b).timer kc tick) := by
  by_cases hslot : keycodeDefersPress kc = true
  · by_cases hc : k.cell.Commits b
    · cases b with
      | true => exact follows_press hnone hslot h hc
      | false => exact follows_release hnone hslot h hc
    · exact follows_keep b hnone hslot h hc
  · exact follows_direct b hnone hslot h

end

end MokyaLora.Keypad
