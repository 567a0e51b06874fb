import MokyaLora.Lib.Sweep
import MokyaLora.KeyEvents

/-!
# The keypad scanner

Every key has its own debounce and its own timer. A slot key defers its press: it is
emitted together with the release, or with the long-press flag once the key has been
down for long enough. Where the source keeps a table for each variable of a key, there
is one table of cells here.
-/

set_option autoImplicit false

namespace MokyaLora.Keypad
open Lib.Bits Lib.Sweep
open MokyaLora.Ime (Keycode mokyaKeyNone keyFlagLongPress)

abbrev Row := Fin 6
abbrev Col := Fin 6

def gKeymap (r : Row) (c : Col) : Keycode :=
  ([[0x06, 0x12, 0x21, 0x18, 0x24, 0x1F],
    [0x01, 0x02, 0x03, 0x04, 0x05, 0x23],
    [0x07, 0x08, 0x09, 0x0A, 0x0B, 0x20],
    [0x0D, 0x0E, 0x0F, 0x10, 0x11, 0x22],
    [0x13, 0x14, 0x15, 0x16, 0x17, 0x0C],
    [0x19, 0x1A, 0x1B, 0x1C, 0x1D, 0x1E]].getD r []).getD c mokyaKeyNone

def kpScanPeriodMs : ℕ := 5
def kpDebounceThreshold : ℕ := 4
def kpLongPressMs : ℕ := 500
def kpLongPressTicks : ℕ := kpLongPressMs/kpScanPeriodMs

def keycodeDefersPress (kc : Keycode) : Bool :=
  [0x01, 0x02, 0x03, 0x04, 0x05, 0x07, 0x08, 0x09, 0x0A, 0x0B, 0x0D, 0x0E, 0x0F, 0x10, 0x11,
    0x13, 0x14, 0x15, 0x16, 0x17].contains kc

inductive LpState where
  | idle
  | pressPending
  | longEmitted
  deriving DecidableEq

structure Cell where
  stable : Bool
  pending : Bool
  count : ℕ
  lpState : LpState
  lpPressTick : UInt32
  deriving DecidableEq

namespace Cell

def zero : Cell := ⟨false, false, 0, .idle, 0⟩

variable (x : Cell) (kc : Keycode) (now : UInt32) (bit : Bool)

def track : Cell :=
  if bit ≠ x.stable then
    if bit = x.pending then { x with count := if x.count < 0xFF then x.count+1 else x.count }
    else { x with pending := bit, count := 1 }
  else { x with count := 0, pending := x.stable }

def Commits : Prop := bit ≠ x.stable ∧ kpDebounceThreshold ≤ (x.track bit).count

instance : Decidable (x.Commits bit) := inferInstanceAs (Decidable (_ ∧ _))

def commit : Cell := { x with stable := bit, count := 0 }

/-- The events of a commit, as (pressed, flags). -/
def commitEvents : List (Bool × UInt8) :=
  if kc = mokyaKeyNone then []
  else if keycodeDefersPress kc = false then [(bit, 0)]
  else if bit then []
  else
    match x.lpState with
    | .pressPending => [(true, 0), (false, 0)]
    | .longEmitted => [(false, keyFlagLongPress)]
    | .idle => [(false, 0)]

def drive : Cell :=
  if kc = mokyaKeyNone ∨ keycodeDefersPress kc = false then x
  else if bit then { x with lpState := .pressPending, lpPressTick := now }
  else { x with lpState := .idle }

def Expires : Prop :=
  ¬ (kc = mokyaKeyNone ∨ keycodeDefersPress kc = false) ∧ x.lpState = .pressPending ∧
    kpLongPressTicks ≤ (now-x.lpPressTick).toNat

instance : Decidable (x.Expires kc now) := inferInstanceAs (Decidable (_ ∧ _ ∧ _))

end Cell

structure Scanner where
  cell : Row → Col → Cell
  gKpSnapshot : Row → BitVec 8
  gKpStable : Row → BitVec 8
  gKpScanTick : UInt32
  events : KeyEvents

namespace Scanner

def start (events : KeyEvents) : Scanner where
  cell := fun _ _ => .zero
  gKpSnapshot := fun _ => 0
  gKpStable := fun _ => 0
  gKpScanTick := 0
  events := events

variable (s : Scanner)

def setCell (r : Row) (c : Col) (x : Cell) : Scanner :=
  { s with cell := Function.update s.cell r (Function.update (s.cell r) c x) }

def pushAll (kc : Keycode) (strokes : List (Bool × UInt8)) : Scanner :=
  { s with events := strokes.foldl (fun e p => (e.pushHwFlags kc p.1 p.2).1) s.events }

/-- The ring holds active-low readings. -/
def keypadRead (sRxRing : Fin 8 → BitVec 8) (r : Row) : BitVec 8 :=
  ~~~sRxRing (r.castLE (by decide)) &&& 0x3F

def scanCol (now : UInt32) (raw : BitVec 8) (r : Row) (s : Scanner × BitVec 8) (c : Col) :
    Scanner × BitVec 8 :=
  let bit := raw.getLsbD c
  let x := (s.1.cell r c).track bit
  let kc := gKeymap r c
  if (s.1.cell r c).Commits bit then
    ((s.1.setCell r c ((x.commit bit).drive kc now bit)).pushAll kc (x.commitEvents kc bit),
      if bit then s.2 ||| Lib.Bits.bit c else s.2 &&& ~~~Lib.Bits.bit c)
  else (s.1.setCell r c x, s.2)

def scanRow (now : UInt32) (raw : Row → BitVec 8) (s : Scanner) (r : Row) : Scanner :=
  let s := { s with gKpSnapshot := Function.update s.gKpSnapshot r (raw r) }
  let t := (List.finRange 6).foldl (scanCol now (raw r) r) (s, s.gKpStable r)
  { t.1 with gKpStable := Function.update t.1.gKpStable r t.2 }

def timerCol (now : UInt32) (r : Row) (s : Scanner) (c : Col) : Scanner :=
  let kc := gKeymap r c
  if (s.cell r c).Expires kc now then
    (s.pushAll kc [(true, keyFlagLongPress)]).setCell r c
      { s.cell r c with lpState := .longEmitted }
  else s

def timerRow (now : UInt32) (s : Scanner) (r : Row) : Scanner :=
  (List.finRange 6).foldl (timerCol now r) s

def scan (sRxRing : Fin 8 → BitVec 8) : Scanner :=
  let now := s.gKpScanTick
  let s := (List.finRange 6).foldl (scanRow now (keypadRead sRxRing)) s
  let s := (List.finRange 6).foldl (timerRow now) s
  { s with gKpScanTick := s.gKpScanTick+1 }

inductive Action where
  | scan (sRxRing : Fin 8 → BitVec 8)
  | inject (keycode : Keycode) (pressed : Bool) (flags : UInt8)
  | pop
  | viewPop

def next : Action → Scanner
  | .scan ring => s.scan ring
  | .inject kc pressed flags => { s with events := (s.events.pushInjectFlags kc pressed flags).1 }
  | .pop => { s with events := s.events.pop.1 }
  | .viewPop => { s with events := s.events.viewPop.1 }

def run (s : Scanner) (as : List Action) : Scanner := as.foldl next s

end Scanner

theorem keymap_valid (r : Row) (c : Col) : keycodeValid (gKeymap r c) := by
  revert r c
  decide

theorem keymap_injective (r r' : Row) (c c' : Col) (h : gKeymap r c = gKeymap r' c') :
    r = r' ∧ c = c' := by
  revert r r' c c'
  decide

theorem keymap_ne_none (r : Row) (c : Col) : gKeymap r c ≠ mokyaKeyNone := by
  revert r c
  decide

structure Key where
  cell : Cell
  shown : Bool
  held : Bool
  strokes : List (Bool × UInt8)

namespace Key

def push (k : Key) (p : Bool × UInt8) : Key :=
  { k with held := p.1, strokes := k.strokes++[(p.1, p.2 &&& 0x3F)] }

def pushAll (k : Key) (ps : List (Bool × UInt8)) : Key := ps.foldl push k

def pass (kc : Keycode) (now : UInt32) (bit : Bool) (k : Key) : Key :=
  if k.cell.Commits bit then
    { k with
      cell := ((k.cell.track bit).commit bit).drive kc now bit
      shown := bit }.pushAll ((k.cell.track bit).commitEvents kc bit)
  else { k with cell := k.cell.track bit }

def timer (kc : Keycode) (now : UInt32) (k : Key) : Key :=
  if k.cell.Expires kc now then
    { k.pushAll [(true, keyFlagLongPress)] with cell := { k.cell with lpState := .longEmitted } }
  else k

theorem push_all_eq (k : Key) (ps : List (Bool × UInt8)) : k.pushAll ps =
    { k with
      held := (ps.getLast?.map Prod.fst).getD k.held
      strokes := k.strokes++ps.map (fun p => (p.1, p.2 &&& 0x3F)) } := by
  induction ps generalizing k with
  | nil => simp [pushAll]
  | cons p ps ih =>
    rw [pushAll, List.foldl_cons, ← pushAll, ih, push, List.getLast?_cons]
    cases ps.getLast? <;> simp

end Key

namespace Scanner

def key (r : Row) (c : Col) (s : Scanner) : Key where
  cell := s.cell r c
  shown := (s.gKpStable r).getLsbD c
  held := s.events.holds (gKeymap r c)
  strokes := s.events.strokes (gKeymap r c)

/-- The key while the row of `g_kp_stable` is in a local variable. -/
def keyInRow (r : Row) (c : Col) (s : Scanner × BitVec 8) : Key :=
  { s.1.key r c with shown := s.2.getLsbD c }

variable (s : Scanner) (r r' : Row) (c c' : Col)

theorem push_all_self (ps : List (Bool × UInt8)) :
    (s.pushAll (gKeymap r c) ps).key r c = (s.key r c).pushAll ps := by
  induction ps generalizing s with
  | nil => rfl
  | cons p ps ih =>
    have hkc := keymap_valid r c
    have hstep : ({ s with events := (s.events.pushHwFlags (gKeymap r c) p.1 p.2).1 } : Scanner).key
        r c = (s.key r c).push p := by
      rw [key, KeyEvents.hw_holds _ _ _ _ _ hkc hkc, KeyEvents.hw_strokes _ _ _ _ _ hkc, if_pos rfl,
        if_pos rfl]
      rfl
    rw [Key.pushAll, List.foldl_cons, ← hstep]
    exact ih { s with events := (s.events.pushHwFlags (gKeymap r c) p.1 p.2).1 }

theorem push_all_other (ps : List (Bool × UInt8)) (h : ¬ (r' = r ∧ c' = c)) :
    (s.pushAll (gKeymap r' c') ps).key r c = s.key r c := by
  have hkc : gKeymap r c ≠ gKeymap r' c' := fun heq =>
    h (keymap_injective r' r c' c heq.symm)
  induction ps generalizing s with
  | nil => rfl
  | cons p ps ih =>
    have hstep : ({ s with events := (s.events.pushHwFlags (gKeymap r' c') p.1 p.2).1 } :
        Scanner).key r c = s.key r c := by
      rw [key, KeyEvents.hw_holds _ _ _ _ _ (keymap_valid r' c') (keymap_valid r c),
        KeyEvents.hw_strokes _ _ _ _ _ (keymap_valid r' c'), if_neg hkc, if_neg (Ne.symm hkc),
        List.append_nil]
      rfl
    rw [← hstep]
    exact ih { s with events := (s.events.pushHwFlags (gKeymap r' c') p.1 p.2).1 }

theorem set_cell_self (x : Cell) : (s.setCell r c x).key r c = { s.key r c with cell := x } := by
  simp [key, setCell]

theorem set_cell_other (x : Cell) (h : ¬ (r' = r ∧ c' = c)) :
    (s.setCell r' c' x).key r c = s.key r c := by
  by_cases hr : r = r'
  · have hc : c ≠ c' := fun hc => h ⟨hr.symm, hc.symm⟩
    simp [key, setCell, hr, hc]
  · simp [key, setCell, hr]

theorem scan_col_self (now : UInt32) (raw : BitVec 8) (t : Scanner × BitVec 8) :
    keyInRow r c (scanCol now raw r t c) =
      (keyInRow r c t).pass (gKeymap r c) now (raw.getLsbD c) := by
  rw [scanCol, Key.pass]
  by_cases h : (t.1.cell r c).Commits (raw.getLsbD c)
  · have hput := put_get t.2 c c (raw.getLsbD c) (show (c : ℕ) < 8 by omega)
    rw [if_pos rfl, put] at hput
    rw [if_pos h, if_pos (show (keyInRow r c t).cell.Commits _ from h), keyInRow, push_all_self,
      set_cell_self, hput, Key.push_all_eq, Key.push_all_eq]
    rfl
  · rw [if_neg h, if_neg (show ¬ (keyInRow r c t).cell.Commits _ from h), keyInRow, set_cell_self]
    rfl

theorem scan_col_other (now : UInt32) (raw : BitVec 8) (t : Scanner × BitVec 8)
    (h : ¬ (r' = r ∧ c' = c)) : (scanCol now raw r' t c').1.key r c = t.1.key r c := by
  rw [scanCol]
  split
  · rw [push_all_other _ _ _ _ _ _ h, set_cell_other _ _ _ _ _ _ h]
  · exact set_cell_other _ _ _ _ _ _ h

theorem scan_col_bit (now : UInt32) (raw : BitVec 8) (t : Scanner × BitVec 8) (h : c' ≠ c) :
    (scanCol now raw r t c').2.getLsbD c = t.2.getLsbD c := by
  rw [scanCol]
  split
  · have hput := put_get t.2 c' c (raw.getLsbD c') (show (c : ℕ) < 8 by omega)
    rw [if_neg (fun heq => h (Fin.ext heq).symm), put] at hput
    exact hput
  · rfl

theorem scan_row_self (now : UInt32) (raw : Row → BitVec 8) :
    (scanRow now raw s r).key r c =
      (s.key r c).pass (gKeymap r c) now ((raw r).getLsbD c) := by
  have hsweep := sweep_once (scanCol now (raw r) r) (keyInRow r c) c
    (Key.pass (gKeymap r c) now ((raw r).getLsbD c))
    (fun t c' hc => by
      rw [keyInRow, scan_col_other r r c c' now (raw r) t (fun h => hc h.2),
        scan_col_bit r c c' now (raw r) t hc, keyInRow])
    (scan_col_self r c now (raw r)) (List.finRange 6) (List.nodup_finRange 6)
    (List.mem_finRange c)
    ({ s with gKpSnapshot := Function.update s.gKpSnapshot r (raw r) }, s.gKpStable r)
  rw [scanRow]
  simp only [keyInRow, key, Function.update_self] at hsweep ⊢
  exact hsweep

theorem scan_row_other (now : UInt32) (raw : Row → BitVec 8) (h : r' ≠ r) :
    (scanRow now raw s r').key r c = s.key r c := by
  have hsweep := sweep_other (scanCol now (raw r') r') (fun t => t.1.key r c) (List.finRange 6)
    (fun t c' _ => scan_col_other r r' c c' now (raw r') t (fun h' => h h'.1))
    ({ s with gKpSnapshot := Function.update s.gKpSnapshot r' (raw r') }, s.gKpStable r')
  rw [scanRow]
  simp only [key, Function.update_of_ne (Ne.symm h)] at hsweep ⊢
  exact hsweep

theorem timer_col_self (now : UInt32) :
    (timerCol now r s c).key r c = (s.key r c).timer (gKeymap r c) now := by
  rw [timerCol, Key.timer]
  by_cases h : (s.cell r c).Expires (gKeymap r c) now
  · rw [if_pos h, if_pos (show (s.key r c).cell.Expires _ _ from h), set_cell_self, push_all_self]
    rfl
  · rw [if_neg h, if_neg (show ¬ (s.key r c).cell.Expires _ _ from h)]

theorem timer_col_other (now : UInt32) (h : ¬ (r' = r ∧ c' = c)) :
    (timerCol now r' s c').key r c = s.key r c := by
  rw [timerCol]
  split
  · rw [set_cell_other _ _ _ _ _ _ h, push_all_other _ _ _ _ _ _ h]
  · rfl

theorem timer_row_self (now : UInt32) :
    (timerRow now s r).key r c = (s.key r c).timer (gKeymap r c) now :=
  sweep_once (timerCol now r) (key r c) c _
    (fun t c' hc => timer_col_other t r r c c' now (fun h => hc h.2))
    (fun t => timer_col_self t r c now) (List.finRange 6) (List.nodup_finRange 6)
    (List.mem_finRange c) s

theorem timer_row_other (now : UInt32) (h : r' ≠ r) :
    (timerRow now s r').key r c = s.key r c :=
  sweep_other (timerCol now r') (key r c) (List.finRange 6)
    (fun t c' _ => timer_col_other t r r' c c' now (fun h' => h h'.1)) s

theorem key_tick (tick : UInt32) : ({ s with gKpScanTick := tick } : Scanner).key r c = s.key r c :=
  rfl

/-- An iteration does to each key what the two passes do to that key alone. -/
theorem scan_key (ring : Fin 8 → BitVec 8) : (s.scan ring).key r c =
    ((s.key r c).pass (gKeymap r c) s.gKpScanTick ((keypadRead ring r).getLsbD c)).timer
      (gKeymap r c) s.gKpScanTick := by
  have hrows := sweep_once (scanRow s.gKpScanTick (keypadRead ring)) (key r c) r _
    (fun t r' hr => scan_row_other t r r' c _ _ hr) (fun t => scan_row_self t r c _ _)
    (List.finRange 6) (List.nodup_finRange 6) (List.mem_finRange r) s
  have htimers := fun t => sweep_once (timerRow s.gKpScanTick) (key r c) r _
    (fun t r' hr => timer_row_other t r r' c _ hr) (fun t => timer_row_self t r c _)
    (List.finRange 6) (List.nodup_finRange 6) (List.mem_finRange r) t
  rw [← hrows, ← htimers]
  exact key_tick _ r c _

end Scanner

end MokyaLora.Keypad
