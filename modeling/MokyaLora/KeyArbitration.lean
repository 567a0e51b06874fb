import MokyaLora.Lib.Schedule
import MokyaLora.KeyEvents

/-!
# Two producers, step by step

A push is two atomic steps. The hardware producer updates the bitmap and then sends; the
injecting producer tests the bitmap and then sends. The steps of the two interleave in
any order.
-/

set_option autoImplicit false

namespace MokyaLora.Keypad
open Lib.Schedule
open MokyaLora.Ime (Keycode)

inductive Note where
  | marked (keycode : Keycode) (pressed : Bool)
  | sentHw (ev : KeyEvent) (result : KeyEventResult)
  | passed (ev : KeyEvent)
  | rejected (ev : KeyEvent)
  | sentInject (ev : KeyEvent) (result : KeyEventResult)
  deriving DecidableEq

structure Arbiter where
  events : KeyEvents
  hw : Option KeyEvent
  inject : Option KeyEvent
  notes : List Note
  deriving DecidableEq

inductive Move where
  | hwMark (keycode : Keycode) (pressed : Bool) (flags : UInt8)
  | hwSend
  | injectTest (keycode : Keycode) (pressed : Bool) (flags : UInt8)
  | injectSend
  | pop
  | viewPop

namespace Arbiter

def start (queueCreated viewCreated : Bool) : Arbiter :=
  ⟨.init queueCreated viewCreated, none, none, []⟩

variable (s : Arbiter)

def mark (keycode : Keycode) (pressed : Bool) (flags : UInt8) : Arbiter :=
  { s with
    events := s.events.hwPressedSet keycode pressed
    hw := some (KeyEvents.hwEvent keycode pressed flags)
    notes := .marked keycode pressed::s.notes }

def sendHw (ev : KeyEvent) : Arbiter :=
  { s with
    events := (s.events.pushLocked ev).1
    hw := none
    notes := .sentHw ev (s.events.pushLocked ev).2::s.notes }

def test (ev : KeyEvent) : Arbiter :=
  if ev.pressed && s.events.hwPressedTest ev.keycode then
    { s with
      events := { s.events with rejected := s.events.rejected+1 }
      notes := .rejected ev::s.notes }
  else { s with inject := some ev, notes := .passed ev::s.notes }

def sendInject (ev : KeyEvent) : Arbiter :=
  { s with
    events := (s.events.pushLocked ev).1
    inject := none
    notes := .sentInject ev (s.events.pushLocked ev).2::s.notes }

def step : Move → Option Arbiter
  | .hwMark keycode pressed flags =>
    if s.hw = none then
      some (if keycodeValid keycode then s.mark keycode pressed flags else s)
    else none
  | .hwSend => s.hw.map s.sendHw
  | .injectTest keycode pressed flags =>
    if s.inject = none then
      some (if keycodeValid keycode then s.test (KeyEvents.injectEvent keycode pressed flags) else s)
    else none
  | .injectSend => s.inject.map s.sendInject
  | .pop => some { s with events := s.events.pop.1 }
  | .viewPop => some { s with events := s.events.viewPop.1 }

theorem hw_push (keycode : Keycode) (pressed : Bool) (flags : UInt8) (hk : keycodeValid keycode)
    (hidle : s.hw = none) :
    (exec step s [.hwMark keycode pressed flags, .hwSend]).map events =
      some (s.events.pushHwFlags keycode pressed flags).1 := by
  rw [exec, step, if_pos hidle, if_pos hk, KeyEvents.pushHwFlags, if_pos hk]
  rfl

theorem inject_push (keycode : Keycode) (pressed : Bool) (flags : UInt8)
    (hk : keycodeValid keycode) (hidle : s.inject = none) :
    (exec step s (.injectTest keycode pressed flags::
        if pressed && s.events.hwPressedTest keycode then [] else [.injectSend])).map events =
      some (s.events.pushInjectFlags keycode pressed flags).1 := by
  rw [exec, step, if_pos hidle, if_pos hk, KeyEvents.pushInjectFlags, if_pos hk, Option.bind_some,
    test]
  by_cases hbusy : (pressed && s.events.hwPressedTest keycode) = true
  · rw [if_pos hbusy, if_pos hbusy, if_pos (by exact hbusy)]
    rfl
  · rw [if_neg hbusy, if_neg hbusy, if_neg (by exact hbusy)]
    rfl

def lastMark (k : Keycode) : List Note → Bool
  | [] => false
  | .marked kc pressed::ns => if k = kc then pressed else lastMark k ns
  | _::ns => lastMark k ns

theorem cleared_since (k : Keycode) (since earlier : List Note)
    (h : lastMark k (since++.marked k true::earlier) = false) : .marked k false ∈ since := by
  induction since with
  | nil => simp [lastMark] at h
  | cons n since ih =>
    cases n with
    | marked kc pressed =>
      rw [List.cons_append, lastMark] at h
      by_cases hk : k = kc
      · rw [if_pos hk] at h
        rw [hk, h]
        exact List.mem_cons_self
      · rw [if_neg hk] at h
        exact List.mem_cons_of_mem _ (ih h)
    | sentHw ev result => exact List.mem_cons_of_mem _ (ih h)
    | passed ev => exact List.mem_cons_of_mem _ (ih h)
    | rejected ev => exact List.mem_cons_of_mem _ (ih h)
    | sentInject ev result => exact List.mem_cons_of_mem _ (ih h)

def OfHw : Note → Prop
  | .marked _ _ => True
  | .sentHw _ _ => True
  | _ => False

/-- The first step of a push is the last thing that its producer did. -/
def Begun (other : Note → Prop) (n : Note) (ns : List Note) : Prop :=
  ∃ since earlier, ns = since++n::earlier ∧ ∀ m ∈ since, other m

theorem begun_cons (other : Note → Prop) (n m : Note) (ns : List Note) (hm : other m)
    (h : Begun other n ns) : Begun other n (m::ns) := by
  obtain ⟨since, earlier, hns, hother⟩ := h
  refine ⟨m::since, earlier, congrArg (m::·) hns, ?_⟩
  intro x hx
  rcases List.mem_cons.mp hx with rfl | hx
  · exact hm
  · exact hother x hx

theorem begun_head (other : Note → Prop) (n : Note) (ns : List Note) : Begun other n (n::ns) :=
  ⟨[], ns, rfl, fun _ hm => absurd hm List.not_mem_nil⟩

def Sound : List Note → Prop
  | [] => True
  | .sentHw ev _::ns =>
    Begun (fun n => ¬ OfHw n) (.marked ev.keycode ev.pressed) ns ∧ Sound ns
  | .sentInject ev _::ns => Begun OfHw (.passed ev) ns ∧ Sound ns
  | .passed ev::ns => (ev.pressed = true → lastMark ev.keycode ns = false) ∧ Sound ns
  | .marked _ _::ns => Sound ns
  | .rejected _::ns => Sound ns

theorem sound_suffix (later ns : List Note) (h : Sound (later++ns)) : Sound ns := by
  induction later with
  | nil => exact h
  | cons n later ih =>
    cases n with
    | sentHw ev result => exact ih h.2
    | sentInject ev result => exact ih h.2
    | passed ev => exact ih h.2
    | marked kc pressed => exact ih h
    | rejected ev => exact ih h

structure Inv : Prop where
  holds : ∀ k, keycodeValid k → s.events.holds k = lastMark k s.notes
  hw : ∀ ev, s.hw = some ev →
    Begun (fun n => ¬ OfHw n) (.marked ev.keycode ev.pressed) s.notes
  inject : ∀ ev, s.inject = some ev → Begun OfHw (.passed ev) s.notes
  sound : Sound s.notes

theorem start_inv (queueCreated viewCreated : Bool) : (start queueCreated viewCreated).Inv := by
  constructor
  · exact fun k _ => BitVec.getLsbD_zero
  · intro ev h
    cases h
  · intro ev h
    cases h
  · trivial

variable {s}

theorem mark_inv (keycode : Keycode) (pressed : Bool) (flags : UInt8) (h : s.Inv) :
    (s.mark keycode pressed flags).Inv := by
  constructor
  · intro k hk
    rw [mark, KeyEvents.set_holds _ _ _ _ hk, h.holds k hk]
    rfl
  · intro ev hev
    obtain rfl := Option.some.inj hev
    exact begun_head _ _ _
  · exact fun ev hev => begun_cons _ _ _ _ trivial (h.inject ev hev)
  · exact h.sound

theorem send_hw_inv (ev : KeyEvent) (hev : s.hw = some ev) (h : s.Inv) : (s.sendHw ev).Inv := by
  constructor
  · intro k hk
    rw [sendHw, KeyEvents.push_holds, h.holds k hk]
    rfl
  · intro ev' hev'
    cases hev'
  · exact fun ev hev => begun_cons _ _ _ _ trivial (h.inject ev hev)
  · exact ⟨h.hw ev hev, h.sound⟩

theorem test_inv (ev : KeyEvent) (hk : keycodeValid ev.keycode) (hidle : s.inject = none)
    (h : s.Inv) : (s.test ev).Inv := by
  rw [test]
  by_cases hbusy : (ev.pressed && s.events.hwPressedTest ev.keycode) = true
  · rw [if_pos hbusy]
    constructor
    · exact h.holds
    · exact fun ev' hev' => begun_cons _ _ _ _ id (h.hw ev' hev')
    · intro ev' hev'
      rw [hidle] at hev'
      cases hev'
    · exact h.sound
  · rw [if_neg hbusy]
    constructor
    · exact h.holds
    · exact fun ev' hev' => begun_cons _ _ _ _ id (h.hw ev' hev')
    · intro ev' hev'
      obtain rfl := Option.some.inj hev'
      exact begun_head _ _ _
    · refine ⟨fun hp => ?_, h.sound⟩
      rw [hp, Bool.true_and, KeyEvents.hw_pressed_test_eq _ _ hk, h.holds _ hk] at hbusy
      exact Bool.eq_false_iff.mpr hbusy

theorem send_inject_inv (ev : KeyEvent) (hev : s.inject = some ev) (h : s.Inv) :
    (s.sendInject ev).Inv := by
  constructor
  · intro k hk
    rw [sendInject, KeyEvents.push_holds, h.holds k hk]
    rfl
  · exact fun ev' hev' => begun_cons _ _ _ _ id (h.hw ev' hev')
  · intro ev' hev'
    cases hev'
  · exact ⟨h.inject ev hev, h.sound⟩

theorem step_inv (m : Move) (t : Arbiter) (h : s.Inv) (hstep : s.step m = some t) : t.Inv := by
  cases m with
  | hwMark keycode pressed flags =>
    rw [step] at hstep
    split at hstep
    · rw [← Option.some.inj hstep]
      split
      · exact mark_inv keycode pressed flags h
      · exact h
    · cases hstep
  | hwSend =>
    obtain ⟨ev, hev, rfl⟩ := Option.map_eq_some_iff.mp hstep
    exact send_hw_inv ev hev h
  | injectTest keycode pressed flags =>
    rw [step] at hstep
    split at hstep
    · rw [← Option.some.inj hstep]
      split
      · exact test_inv _ (by assumption) (by assumption) h
      · exact h
    · cases hstep
  | injectSend =>
    obtain ⟨ev, hev, rfl⟩ := Option.map_eq_some_iff.mp hstep
    exact send_inject_inv ev hev h
  | pop =>
    rw [← Option.some.inj hstep]
    refine ⟨fun k hk => ?_, h.hw, h.inject, h.sound⟩
    rw [KeyEvents.pop_holds, h.holds k hk]
  | viewPop =>
    rw [← Option.some.inj hstep]
    refine ⟨fun k hk => ?_, h.hw, h.inject, h.sound⟩
    rw [KeyEvents.view_pop_holds, h.holds k hk]

theorem exec_inv (queueCreated viewCreated : Bool) (ms : List Move)
    (h : exec step (start queueCreated viewCreated) ms = some s) : s.Inv :=
  exec_invariant step (fun _ _ => True) Inv (fun _ m t hs _ ht => step_inv m t hs ht) ms _ s
    (start_inv queueCreated viewCreated)
    (along_of_forall step _ (fun _ _ => trivial) ms _) h

/-- In the queue no injected press of a key stands between a press of the hardware and
its release. -/
def Exclusive (s : Arbiter) : Prop :=
  ∀ before mid after press inject, s.events.offered =
      before++(press, .ok)::(mid++(inject, .ok)::after) →
    press.source = .hw → press.pressed = true → inject.source = .inject → inject.pressed = true →
    inject.keycode = press.keycode →
    ∃ e ∈ mid, e.1.source = .hw ∧ e.1.pressed = false ∧ e.1.keycode = press.keycode

/-- The test that the send goes back to, the last step of its producer, passed after the
bit had been cleared. -/
def ClearedThenPassed (ev : KeyEvent) (ns : List Note) : Prop :=
  ∃ since between, ns = since++.passed ev::between ∧ (∀ n ∈ since, OfHw n) ∧
    .marked ev.keycode false ∈ between

/-- That test passed before the bit was set by the press that was sent between them. -/
def PassedThenMarked (ev : KeyEvent) (mid older : List Note) : Prop :=
  ∃ since earlier, older = .marked ev.keycode true::(since++.passed ev::earlier) ∧
    ∀ n ∈ mid++since, OfHw n

/-- The bit that a hardware press set is clear when a later test passes, so it was cleared
after that press went into the queue. -/
theorem cleared_after (kc : Keycode) (since older : List Note)
    (hbegun : Begun (fun n => ¬ OfHw n) (.marked kc true) older) (press : KeyEvent)
    (result : KeyEventResult) (h : lastMark kc (since++.sentHw press result::older) = false) :
    .marked kc false ∈ since := by
  obtain ⟨gap, old, rfl, hgap⟩ := hbegun
  have hmem := cleared_since kc (since++.sentHw press result::gap) old (by simpa using h)
  rcases List.mem_append.mp hmem with hmem | hmem
  · exact hmem
  · rcases List.mem_cons.mp hmem with heq | hmem
    · cases heq
    · exact absurd trivial (hgap _ hmem)

theorem marked_since (ev : KeyEvent) (since older earlier : List Note)
    (hbegun : Begun (fun n => ¬ OfHw n) (.marked ev.keycode true) older)
    (hclear : lastMark ev.keycode earlier = false) (hsince : ∀ n ∈ since, OfHw n)
    (holder : older = since++.passed ev::earlier) :
    ∃ rest, since = .marked ev.keycode true::rest := by
  obtain ⟨gap, old, hmark, hgap⟩ := hbegun
  rcases List.append_eq_append_iff.mp (hmark.symm.trans holder) with
    ⟨rest, rfl, hrest⟩ | ⟨rest, rfl, hrest⟩
  · have hnil : gap = [] := by
      refine List.eq_nil_iff_forall_not_mem.mpr (fun n hn => ?_)
      exact hgap n hn (hsince n (List.mem_append_left _ hn))
    rcases List.cons_eq_append_iff.mp hrest with ⟨-, hhead⟩ | ⟨rest', rfl, -⟩
    · cases hhead
    · exact ⟨rest', by rw [hnil, List.nil_append]⟩
  · rcases List.cons_eq_append_iff.mp hrest with ⟨-, hhead⟩ | ⟨rest', rfl, rfl⟩
    · cases hhead
    · have hmem := cleared_since ev.keycode rest' old hclear
      exact absurd trivial (hgap _ (List.mem_append_right _ (List.mem_cons_of_mem _ hmem)))

/-- An injected press that comes into the queue after a press of the hardware was tested
after the bit had been cleared, or else before that press set it. -/
theorem injected_press_tested (queueCreated viewCreated : Bool) (ms : List Move) (s : Arbiter)
    (h : exec step (start queueCreated viewCreated) ms = some s) (later mid older : List Note)
    (press inject : KeyEvent)
    (hnotes : s.notes = later++.sentInject inject .ok::(mid++.sentHw press .ok::older))
    (hpress : press.pressed = true) (hinject : inject.pressed = true)
    (hk : inject.keycode = press.keycode) :
    ClearedThenPassed inject mid ∨ PassedThenMarked inject mid older := by
  have hsound := (exec_inv queueCreated viewCreated ms h).sound
  rw [hnotes] at hsound
  obtain ⟨⟨since, earlier, hsplit, hhw⟩, hrest⟩ := sound_suffix later _ hsound
  have hbegun := (sound_suffix mid _ hrest).1
  rw [hpress, ← hk] at hbegun
  have hclear : lastMark inject.keycode earlier = false := by
    rw [hsplit] at hrest
    exact (sound_suffix since _ hrest).1 hinject
  rcases List.append_eq_append_iff.mp hsplit with ⟨gap, rfl, hgap⟩ | ⟨gap, hmid, hgap⟩
  · rcases List.cons_eq_append_iff.mp hgap with ⟨-, hhead⟩ | ⟨since, rfl, holder⟩
    · cases hhead
    · have hsince : ∀ n ∈ since, OfHw n := fun n hn =>
        hhw n (List.mem_append_right _ (List.mem_cons_of_mem _ hn))
      obtain ⟨rest, rfl⟩ := marked_since inject since older earlier hbegun hclear hsince holder
      refine .inr ⟨rest, earlier, holder, fun n hn => hhw n ?_⟩
      rcases List.mem_append.mp hn with hn | hn
      · exact List.mem_append_left _ hn
      · exact List.mem_append_right _ (List.mem_cons_of_mem _ (List.mem_cons_of_mem _ hn))
  · rcases List.cons_eq_append_iff.mp hgap with ⟨-, hhead⟩ | ⟨between, rfl, rfl⟩
    · cases hhead
    · exact .inl ⟨since, between, hmid, hhw,
        cleared_after _ between older hbegun press .ok hclear⟩

/-- The user lets go, the bit is cleared, and the key is injected before the release comes
into the queue. -/
def releaseRace : List Move :=
  [.hwMark 0x23 true 0, .hwSend, .hwMark 0x23 false 0, .injectTest 0x23 true 0, .injectSend, .hwSend]

theorem release_race_tested :
    ClearedThenPassed (KeyEvents.injectEvent 0x23 true 0)
      [.passed (KeyEvents.injectEvent 0x23 true 0), .marked 0x23 false] := by
  have htested := injected_press_tested true true releaseRace _ rfl
    [.sentHw (KeyEvents.hwEvent 0x23 false 0) .ok]
    [.passed (KeyEvents.injectEvent 0x23 true 0), .marked 0x23 false] [.marked 0x23 true]
    (KeyEvents.hwEvent 0x23 true 0) (KeyEvents.injectEvent 0x23 true 0) rfl rfl rfl rfl
  refine htested.resolve_right ?_
  rintro ⟨since, earlier, -, hhw⟩
  exact hhw _ (List.mem_append_left since List.mem_cons_self)

/-- The injected press stands between the press and the release of the hardware. -/
theorem release_race_injected :
    ∃ s, exec step (start true true) releaseRace = some s ∧ ¬ Exclusive s := by
  refine ⟨_, rfl, fun h => ?_⟩
  obtain ⟨e, he, -⟩ := h [] [] [(KeyEvents.hwEvent 0x23 false 0, .ok)]
    (KeyEvents.hwEvent 0x23 true 0) (KeyEvents.injectEvent 0x23 true 0) rfl rfl rfl rfl rfl rfl
  cases he

end Arbiter

end MokyaLora.Keypad
