import MokyaLora.Lib.Schedule
import MokyaLora.NodesDb
import MokyaLora.ViewRouter

/-!
# The nodes view

The screen that shows one peer of the mesh (`nodes_view.c`). It repaints when the table's
change number is not the one of its last refresh, and a refresh while it is hidden notes that
number without painting: what was reported by then is not painted when the view comes on
screen, only with the next report or a press of UP or DOWN.
-/

set_option autoImplicit false

namespace MokyaLora.NodesView
open Lib.Fields Lib.Schedule NodesDb ViewRouter
open MokyaLora.Keypad (KeyEvent)
open MokyaLora.Ime (Keycode)

def mokyaKeyUp : Keycode := 0x1F
def mokyaKeyDown : Keycode := 0x20

def viewIndex : ℕ := 5

inductive Header where
  | noNodes
  | node (aliasText : Bytes) (nodeId : UInt32)
  deriving DecidableEq

/-- The four lines of the body; `none` is printed as `--`, `?` or `no GPS`. -/
structure Body where
  snrX4 : Option Int8
  hopsAway : Option UInt8
  batteryMv : Option UInt16
  position : Option (Int32 × Int32)
  deriving DecidableEq

structure Screen where
  header : Header
  body : Option Body
  deriving DecidableEq

def screenOf : Option Entry → Screen
  | none => ⟨.noNodes, none⟩
  | some e =>
    { header := .node ((Lib.Memory.segment e.aliasText 0 (cut e.aliasLen).toNat).takeWhile (· ≠ 0))
        e.nodeId
      body := some {
        snrX4 := if e.snrX4 = -128 then none else some e.snrX4
        hopsAway := if e.hopsAway = 0xFF then none else some e.hopsAway
        batteryMv := if e.batteryMv = 0 then none else some e.batteryMv
        position := if e.latE7 = -2147483648 ∨ e.lonE7 = -2147483648 then none
          else some (e.latE7, e.lonE7) } }

structure View where
  screen : Screen
  footer : UInt32 × UInt32
  offset : UInt32
  lastChangeSeq : UInt32
  stickyToNewest : Bool

inductive Pc where
  | idle
  | render (offset : UInt32)
  | counting (offset : UInt32)
  deriving DecidableEq

/-- The reports are history that no code reads. -/
structure Phone where
  router : Router
  db : Db
  view : View
  pc : Pc
  reports : List Report

def boot : Phone where
  router := viewRouterInit
  db := empty
  view := ⟨⟨.noNodes, none⟩, (0, 0), 0, 0, true⟩
  pc := .idle
  reports := []

def Phone.renderOffset (s : Phone) (offset : UInt32) : Phone :=
  match takeAt s.db offset with
  | none => { s with view := { s.view with screen := screenOf none, footer := (0, 0) }, pc := .idle }
  | some e => { s with view := { s.view with screen := screenOf (some e) }, pc := .counting offset }

def Phone.renderFooter (s : Phone) (offset : UInt32) : Phone :=
  let total := UInt32.ofNat (count s.db)
  let shown := if offset < total then total-offset else 0
  { s with view := { s.view with footer := (shown, total) }, pc := .idle }

/-- `nodes_view_refresh` up to the render. -/
def Phone.refresh (s : Phone) : Phone :=
  let cur := s.db.changeSeq
  if s.router.hidden viewIndex then { s with view := { s.view with lastChangeSeq := cur } }
  else if cur = s.view.lastChangeSeq then s
  else
    let offset := if s.view.stickyToNewest then 0 else s.view.offset
    { s with view := { s.view with lastChangeSeq := cur, offset := offset }, pc := .render offset }

/-- `nodes_view_apply` up to the render. -/
def Phone.apply (s : Phone) (ev : KeyEvent) : Phone :=
  if ev.pressed = false then s
  else
    let total := UInt32.ofNat (count s.db)
    if total = 0 then s
    else if ev.keycode = mokyaKeyUp then
      let offset := if s.view.offset+1 < total then s.view.offset+1 else s.view.offset
      { s with view := { s.view with offset := offset, stickyToNewest := false }, pc := .render offset }
    else if ev.keycode = mokyaKeyDown then
      let offset := if s.view.offset > 0 then s.view.offset-1 else s.view.offset
      let sticky := if offset = 0 then true else s.view.stickyToNewest
      { s with view := { s.view with offset := offset, stickyToNewest := sticky }, pc := .render offset }
    else s

def Phone.key (s : Phone) (ev : KeyEvent) : Phone :=
  let (router, view) := route ev s.router
  let s := { s with router := router }
  if view = some viewIndex then s.apply ev else s

inductive Act where
  | upsert (u : Report)
  | key (ev : KeyEvent)
  | refresh
  | go

def step (s : Phone) : Act → Option Phone
  | .upsert u => some { s with db := NodesDb.upsert s.db u.toUpdate, reports := s.reports++[u] }
  | .key ev => if s.pc = .idle then some (s.key ev) else none
  | .refresh => if s.pc = .idle then some s.refresh else none
  | .go => match s.pc with
    | .idle => none
    | .render offset => some (s.renderOffset offset)
    | .counting offset => some (s.renderFooter offset)

theorem apply_cases (s : Phone) (ev : KeyEvent) :
    s.apply ev = s ∨ (ev.pressed = true ∧ (ev.keycode = mokyaKeyUp ∨ ev.keycode = mokyaKeyDown)) ∧
      ∃ offset sticky, s.apply ev = { s with
        view := { s.view with offset := offset, stickyToNewest := sticky }, pc := .render offset } := by
  rw [Phone.apply]
  by_cases hp : ev.pressed = false
  · exact .inl (if_pos hp)
  · have hpressed : ev.pressed = true := (Bool.not_eq_false _).mp hp
    rw [if_neg hp]
    by_cases hcount : UInt32.ofNat (count s.db) = 0
    · exact .inl (if_pos hcount)
    · simp only [hcount, if_false]
      by_cases hup : ev.keycode = mokyaKeyUp
      · exact .inr ⟨⟨hpressed, .inl hup⟩, _, _, if_pos hup⟩
      · rw [if_neg hup]
        by_cases hdown : ev.keycode = mokyaKeyDown
        · exact .inr ⟨⟨hpressed, .inr hdown⟩, _, _, if_pos hdown⟩
        · exact .inl (if_neg hdown)

theorem key_cases (s : Phone) (ev : KeyEvent) :
    (∃ r, (OneShown s.router → OneShown r) ∧ s.key ev = { s with router := r }) ∨
    s.key ev = s.apply ev := by
  rcases route_cases ev s.router with ⟨next, hnext, hroute⟩ | hroute
  · refine .inl ⟨next, fun _ => hnext, ?_⟩
    simp only [Phone.key, hroute, reduceCtorEq, if_false]
  · by_cases hactive : s.router.active = viewIndex
    · refine .inr ?_
      simp only [Phone.key, hroute, hactive, if_true]
    · refine .inl ⟨s.router, id, ?_⟩
      simp only [Phone.key, hroute, Option.some.injEq, hactive, if_false]

theorem refresh_cases (s : Phone) :
    (s.router.hidden viewIndex = true ∧
      s.refresh = { s with view := { s.view with lastChangeSeq := s.db.changeSeq } }) ∨
    (s.router.hidden viewIndex = false ∧ s.db.changeSeq = s.view.lastChangeSeq ∧ s.refresh = s) ∨
    (s.router.hidden viewIndex = false ∧ s.db.changeSeq ≠ s.view.lastChangeSeq ∧
      ∃ offset, s.refresh = { s with
        view := { s.view with lastChangeSeq := s.db.changeSeq, offset := offset }
        pc := .render offset }) := by
  rw [Phone.refresh]
  cases hhid : s.router.hidden viewIndex with
  | true => exact .inl ⟨rfl, rfl⟩
  | false =>
    by_cases hsame : s.db.changeSeq = s.view.lastChangeSeq
    · refine .inr (.inl ⟨rfl, hsame, ?_⟩)
      simp only [Bool.false_eq_true, if_false, hsame, if_true]
    · refine .inr (.inr ⟨rfl, hsame, ?_⟩)
      simp only [Bool.false_eq_true, if_false, hsame]
      exact ⟨_, rfl⟩

theorem updated_snoc (us : List Report) (u : Report) :
    updated (us++[u]) = NodesDb.upsert (updated us) u.toUpdate :=
  List.foldl_concat ..

theorem updated_change (us : List Report) :
    (updated us).changeSeq = UInt32.ofNat us.length := by
  induction us using List.reverseRecOn with
  | nil => rfl
  | append_singleton us u ih =>
    rw [updated_snoc, NodesDb.upsert, if_neg u.nonzero, List.length_append, ih, List.length_singleton,
      UInt32.ofNat_add]
    rfl

def Painted (us : List Report) (screen : Screen) : Prop :=
  ∃ n ≤ us.length, ∃ offset, screen = screenOf (takeAt (updated (us.take n)) offset)

def Seen (us : List Report) (seq : UInt32) : Prop := ∃ k ≤ us.length, seq = UInt32.ofNat k

def Pc.At (offset : UInt32) : Pc → Prop
  | .idle => True
  | .render o => o = offset
  | .counting o => o = offset

structure Inv (s : Phone) : Prop where
  db : s.db = updated s.reports
  router : OneShown s.router
  seen : Seen s.reports s.view.lastChangeSeq
  screen : Painted s.reports s.view.screen
  pc : s.pc.At s.view.offset

theorem inv_boot : Inv boot where
  db := rfl
  router := init_one
  seen := ⟨0, Nat.le_refl 0, rfl⟩
  screen := ⟨0, Nat.le_refl 0, 0, rfl⟩
  pc := trivial

theorem painted_now (us : List Report) (offset : UInt32) :
    Painted us (screenOf (takeAt (updated us) offset)) :=
  ⟨us.length, Nat.le_refl _, offset, by rw [List.take_length]⟩

theorem seen_now (us : List Report) : Seen us (updated us).changeSeq :=
  ⟨us.length, Nat.le_refl _, updated_change us⟩

theorem inv_upsert {s : Phone} (hi : Inv s) (u : Report) :
    Inv { s with db := NodesDb.upsert s.db u.toUpdate, reports := s.reports++[u] } where
  db := by
    show NodesDb.upsert s.db u.toUpdate = updated (s.reports++[u])
    rw [hi.db, updated_snoc]
  router := hi.router
  seen := by
    obtain ⟨k, hk, hseq⟩ := hi.seen
    exact ⟨k, by rw [List.length_append]; omega, hseq⟩
  screen := by
    obtain ⟨n, hn, offset, hscreen⟩ := hi.screen
    refine ⟨n, by rw [List.length_append]; omega, offset, ?_⟩
    rwa [List.take_append_of_le_length hn]
  pc := hi.pc

theorem inv_key {s : Phone} (hi : Inv s) (ev : KeyEvent) : Inv (s.key ev) := by
  rcases key_cases s ev with ⟨r, hr, heq⟩ | heq <;> rw [heq]
  · exact ⟨hi.db, hr hi.router, hi.seen, hi.screen, hi.pc⟩
  · rcases apply_cases s ev with heq | ⟨-, offset, sticky, heq⟩ <;> rw [heq]
    · exact hi
    · exact ⟨hi.db, hi.router, hi.seen, hi.screen, rfl⟩

theorem inv_refresh {s : Phone} (hi : Inv s) : Inv s.refresh := by
  have hseen : Seen s.reports s.db.changeSeq := by
    rw [hi.db]
    exact seen_now s.reports
  rcases refresh_cases s with ⟨-, heq⟩ | ⟨-, -, heq⟩ | ⟨-, -, offset, heq⟩ <;> rw [heq]
  · exact ⟨hi.db, hi.router, hseen, hi.screen, hi.pc⟩
  · exact hi
  · exact ⟨hi.db, hi.router, hseen, hi.screen, rfl⟩

theorem inv_render {s : Phone} (hi : Inv s) (offset : UInt32) (hpc : s.pc = .render offset) :
    Inv (s.renderOffset offset) := by
  have hat := hi.pc
  rw [hpc] at hat
  have hpainted := painted_now s.reports offset
  rw [← hi.db] at hpainted
  rw [Phone.renderOffset]
  split
  · next hnone =>
    rw [hnone] at hpainted
    exact ⟨hi.db, hi.router, hi.seen, hpainted, trivial⟩
  · next e he =>
    rw [he] at hpainted
    exact ⟨hi.db, hi.router, hi.seen, hpainted, hat⟩

theorem inv_step {s t : Phone} (a : Act) (hi : Inv s) (hs : step s a = some t) : Inv t := by
  cases a with
  | upsert u =>
    cases hs
    exact inv_upsert hi u
  | key ev =>
    rw [step] at hs
    split at hs <;> cases hs
    exact inv_key hi ev
  | refresh =>
    rw [step] at hs
    split at hs <;> cases hs
    exact inv_refresh hi
  | go =>
    rw [step] at hs
    split at hs <;> cases hs
    · exact inv_render hi _ ‹_›
    · exact ⟨hi.db, hi.router, hi.seen, hi.screen, trivial⟩

theorem inv_exec (acts : List Act) (s t : Phone) (hi : Inv s) (he : exec step s acts = some t) :
    Inv t :=
  exec_invariant step (fun _ _ => True) Inv (fun _ a _ hi _ hs => inv_step a hi hs) acts s t hi
    (along_of_forall step _ (fun _ _ => trivial) acts s) he

def Act.reports : Act → List Report
  | .upsert u => [u]
  | _ => []

theorem reports_step {s t : Phone} (a : Act) (hs : step s a = some t) :
    t.reports = s.reports++a.reports := by
  cases a with
  | upsert u =>
    cases hs
    rfl
  | key ev =>
    rw [step] at hs
    split at hs <;> cases hs
    show _ = s.reports++[]
    rw [List.append_nil]
    rcases key_cases s ev with ⟨r, -, heq⟩ | heq <;> rw [heq]
    rcases apply_cases s ev with heq | ⟨-, offset, sticky, heq⟩ <;> rw [heq]
  | refresh =>
    rw [step] at hs
    split at hs <;> cases hs
    show _ = s.reports++[]
    rw [List.append_nil]
    rcases refresh_cases s with ⟨-, heq⟩ | ⟨-, -, heq⟩ | ⟨-, -, offset, heq⟩ <;> rw [heq]
  | go =>
    show _ = s.reports++[]
    rw [List.append_nil]
    rw [step] at hs
    split at hs <;> cases hs
    · rw [Phone.renderOffset]
      split <;> rfl
    · rfl

theorem reports_exec (acts : List Act) (s t : Phone) (he : exec step s acts = some t) :
    t.reports = s.reports++acts.flatMap Act.reports := by
  induction acts generalizing s with
  | nil =>
    rw [exec, Option.some.injEq] at he
    rw [he, List.flatMap_nil, List.append_nil]
  | cons a acts ih =>
    obtain ⟨u, hu, hrest⟩ := Option.bind_eq_some_iff.mp he
    rw [ih u hrest, reports_step a hu, List.flatMap_cons, List.append_assoc]

theorem unrefreshed {acts : List Act} {s t : Phone} (he : exec step s acts = some t)
    (hno : .refresh ∉ acts) : t.view.lastChangeSeq = s.view.lastChangeSeq := by
  induction acts generalizing s with
  | nil =>
    rw [exec, Option.some.injEq] at he
    rw [he]
  | cons a acts ih =>
    obtain ⟨u, hu, hrest⟩ := Option.bind_eq_some_iff.mp he
    rw [ih hrest (fun h => hno (List.mem_cons_of_mem a h))]
    cases a with
    | upsert u =>
      cases hu
      rfl
    | key ev =>
      rw [step] at hu
      split at hu <;> cases hu
      rcases key_cases s ev with ⟨r, -, heq⟩ | heq <;> rw [heq]
      rcases apply_cases s ev with heq | ⟨-, offset, sticky, heq⟩ <;> rw [heq]
    | refresh => exact (hno List.mem_cons_self).elim
    | go =>
      rw [step] at hu
      split at hu <;> cases hu
      · rw [Phone.renderOffset]
        split <;> rfl
      · rfl

/-- The labels show what the table holds at the offset, or will once the render is through. -/
def Phone.Current (s : Phone) : Prop :=
  match s.pc with
  | .render _ => True
  | _ => s.view.screen = screenOf (takeAt s.db s.view.offset)

theorem current_step {s t : Phone} (a : Act) (hi : Inv s) (hc : s.Current)
    (hquiet : a.reports = []) (hs : step s a = some t) : t.Current := by
  cases a with
  | upsert u => cases hquiet
  | key ev =>
    rw [step] at hs
    split at hs <;> cases hs
    rcases key_cases s ev with ⟨r, -, heq⟩ | heq <;> rw [heq]
    · exact hc
    · rcases apply_cases s ev with heq | ⟨-, offset, sticky, heq⟩ <;> rw [heq]
      · exact hc
      · trivial
  | refresh =>
    rw [step] at hs
    split at hs <;> cases hs
    rcases refresh_cases s with ⟨-, heq⟩ | ⟨-, -, heq⟩ | ⟨-, -, offset, heq⟩ <;> rw [heq]
    · exact hc
    · exact hc
    · trivial
  | go =>
    rw [step] at hs
    split at hs <;> cases hs
    · next offset hpc =>
      have hat := hi.pc
      rw [hpc] at hat
      rw [Phone.renderOffset]
      split
      · next hnone =>
        show screenOf none = screenOf (takeAt s.db s.view.offset)
        rw [← hat, hnone]
      · next e he =>
        show screenOf (some e) = screenOf (takeAt s.db s.view.offset)
        rw [← hat, he]
    · next offset hpc =>
      rw [Phone.Current, hpc] at hc
      exact hc

theorem current_exec (acts : List Act) (s t : Phone) (hi : Inv s) (hc : s.Current)
    (hquiet : ∀ a ∈ acts, a.reports = []) (he : exec step s acts = some t) : t.Current := by
  induction acts generalizing s with
  | nil =>
    rw [exec, Option.some.injEq] at he
    exact he ▸ hc
  | cons a acts ih =>
    obtain ⟨u, hu, hrest⟩ := Option.bind_eq_some_iff.mp he
    exact ih u (inv_step a hi hu) (current_step a hi hc (hquiet a List.mem_cons_self) hu)
      (fun b hb => hquiet b (List.mem_cons_of_mem a hb)) hrest

/-- Nothing is left to paint: the table's change number was noted. -/
structure Noted (screen : Screen) (s : Phone) : Prop where
  idle : s.pc = .idle
  noted : s.view.lastChangeSeq = s.db.changeSeq
  screen : s.view.screen = screen

def Act.Turns : Act → Prop
  | .key ev => ev.pressed = true ∧ (ev.keycode = mokyaKeyUp ∨ ev.keycode = mokyaKeyDown)
  | _ => False

theorem noted_step {screen : Screen} {s t : Phone} (a : Act) (hn : Noted screen s)
    (hquiet : a.reports = []) (hturn : ¬ a.Turns) (hs : step s a = some t) : Noted screen t := by
  cases a with
  | upsert u => cases hquiet
  | key ev =>
    rw [step] at hs
    split at hs <;> cases hs
    rcases key_cases s ev with ⟨r, -, heq⟩ | heq <;> rw [heq]
    · exact ⟨hn.idle, hn.noted, hn.screen⟩
    · rcases apply_cases s ev with heq | ⟨hkey, -⟩
      · rwa [heq]
      · exact (hturn hkey).elim
  | refresh =>
    rw [step] at hs
    split at hs <;> cases hs
    rcases refresh_cases s with ⟨-, heq⟩ | ⟨-, -, heq⟩ | ⟨-, hne, -⟩
    · rw [heq]
      exact ⟨hn.idle, rfl, hn.screen⟩
    · rwa [heq]
    · exact (hne hn.noted.symm).elim
  | go =>
    rw [step, hn.idle] at hs
    cases hs

theorem noted_exec {screen : Screen} (acts : List Act) (s t : Phone) (hn : Noted screen s)
    (hquiet : ∀ a ∈ acts, a.reports = []) (hturn : ∀ a ∈ acts, ¬ a.Turns)
    (he : exec step s acts = some t) : Noted screen t := by
  induction acts generalizing s with
  | nil =>
    rw [exec, Option.some.injEq] at he
    exact he ▸ hn
  | cons a acts ih =>
    obtain ⟨u, hu, hrest⟩ := Option.bind_eq_some_iff.mp he
    exact ih u (noted_step a hn (hquiet a List.mem_cons_self) (hturn a List.mem_cons_self) hu)
      (fun b hb => hquiet b (List.mem_cons_of_mem a hb))
      (fun b hb => hturn b (List.mem_cons_of_mem a hb)) hrest

def funcPress : KeyEvent := ⟨mokyaKeyFunc, true, .hw, 0⟩

def peer : Report :=
  ⟨⟨7, -90, 20, 2, 250000000, 1210000000, 3700, some [65, 66], 2⟩, by decide,
    fun _ => ⟨[65, 66], rfl, by decide⟩⟩

end MokyaLora.NodesView
