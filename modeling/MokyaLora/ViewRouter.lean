import MokyaLora.KeyEvents

/-!
# The views and the one on screen

Six views share the screen (`view_router.c`), each in a panel of its own. A press of FUNC
goes on to the next one and every other key event goes to the view on screen.
-/

set_option autoImplicit false

namespace MokyaLora.ViewRouter
open MokyaLora.Keypad (KeyEvent)
open MokyaLora.Ime (Keycode)

def viewCount : ℕ := 6

def mokyaKeyFunc : Keycode := 0x06

structure Router where
  active : ℕ
  hidden : ℕ → Bool

def activate (idx : ℕ) (r : Router) : Router where
  active := idx
  hidden := fun i => if i < viewCount then decide (i ≠ idx) else r.hidden i

def viewRouterInit : Router := activate 0 ⟨0, fun _ => false⟩

/-- One event in the loop of `view_router_tick`, with the view whose `apply` gets it. -/
def route (ev : KeyEvent) (r : Router) : Router × Option ℕ :=
  if ev.keycode = mokyaKeyFunc ∧ ev.pressed = true then
    (activate ((r.active+1) % viewCount) r, none)
  else (r, some r.active)

/-- The panels of the six views, one of them shown. -/
structure OneShown (r : Router) : Prop where
  active : r.active < viewCount
  hidden : ∀ i < viewCount, r.hidden i = decide (i ≠ r.active)

theorem activate_one (idx : ℕ) (r : Router) (h : idx < viewCount) : OneShown (activate idx r) where
  active := h
  hidden := fun _ hi => if_pos hi

theorem init_one : OneShown viewRouterInit := activate_one 0 _ (by decide)

theorem route_cases (ev : KeyEvent) (r : Router) :
    (∃ next, OneShown next ∧ route ev r = (next, none)) ∨ route ev r = (r, some r.active) := by
  rw [route]
  split
  · exact .inl ⟨_, activate_one _ r (Nat.mod_lt _ (by decide)), rfl⟩
  · exact .inr rfl

theorem OneShown.shown {r : Router} (h : OneShown r) (i : ℕ) (hi : i < viewCount) :
    r.hidden i = false ↔ r.active = i := by
  rw [h.hidden i hi, decide_eq_false_iff_not, not_not]
  exact eq_comm

end MokyaLora.ViewRouter
