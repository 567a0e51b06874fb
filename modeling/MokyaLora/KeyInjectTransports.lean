import MokyaLora.KeyInjectOrder
import MokyaLora.KeyInjectRttOrder

/-!
# Both transports inject the same keys

The events of `queue_events` go through the ring over SWD or, wrapped into frames, through
the down channel over RTT. Neither the batches of the one nor the reads and frame bytes of
the other show in the calls of `key_event_push_inject_flags`.
-/

set_option autoImplicit false

namespace MokyaLora.KeyInject
open Lib.Schedule MokyaLora.Keypad
open MokyaLora.KeyInjectFrame (Frame Parser)
open MokyaLora.KeyInjectRtt (callsOf typeKeyEvent)
open MokyaLora.Ime (Keycode)

/-- The frame of `_queue_events_rtt`. -/
def Event.frame (e : Event) : Frame := ⟨typeKeyEvent, [e.ev, e.flags]⟩

theorem calls_of_frame (e : Event) : callsOf e.frame = e.call.toList := by
  simp [callsOf, Event.frame]

theorem calls_of_frames (evs : List Event) :
    (evs.map Event.frame).flatMap callsOf = evs.filterMap Event.call := by
  induction evs with
  | nil => rfl
  | cons e evs ih =>
    rw [List.map_cons, List.flatMap_cons, calls_of_frame, ih]
    cases h : e.call <;> simp [h]

def System.calls (s : System) : List (Keycode × Bool × UInt8) :=
  (s.taken.map Prod.fst).filterMap Event.call

/-- Where the same events were queued on both transports, what either task has injected is
a front of the same calls, and each selected task goes on to the last of them. -/
theorem transports_agree (buf : KeyInjectBuf) (keys keys' : KeyEvents)
    (hmagic : buf.magic ≠ keyInjectMagic) (cells : ℕ → UInt8) (p : Parser)
    (acts : List Act) (acts' : List KeyInjectRtt.Act) (s : System) (r : KeyInjectRtt.System)
    (hs : exec step (System.boot buf keys) acts = some s)
    (hr : exec KeyInjectRtt.step (KeyInjectRtt.System.start cells p keys') acts' = some r)
    (hfew : s.queued.length < 4294967296) (hsame : r.sent = s.queued.map Event.frame) :
    ∃ calls, s.calls <+: calls ∧ r.calls <+: calls ∧
      (s.mode = keyInjectModeSwd → ∃ k u, exec step s (List.replicate k .task) = some u ∧
        u.calls = calls) ∧
      (r.mode = keyInjectModeRtt → ∃ k u,
        exec KeyInjectRtt.step r (List.replicate k .task) = some u ∧ u.calls = calls) := by
  have hi := inv_exec buf keys hmagic acts s hs
  have hj := KeyInjectRtt.inv_exec cells p keys' acts' r hr
  have hcalls := calls_of_frames s.queued
  rw [← hsame] at hcalls
  refine ⟨s.queued.filterMap Event.call, (taken_front s hi hfew).filterMap _, ?_,
    fun hmode => ?_, fun hmode => ?_⟩
  · obtain ⟨later, hlater⟩ := KeyInjectRtt.handed_front p r hj
    rw [hj.calls, ← hcalls, ← hlater, List.flatMap_append]
    exact List.prefix_append _ _
  · obtain ⟨k, u, hu, htaken, -⟩ := task_drains s hi hfew hmode
    exact ⟨k, u, hu, by rw [System.calls, htaken]⟩
  · obtain ⟨k, u, hu, -, hall⟩ := KeyInjectRtt.task_drains p r hj hmode
    exact ⟨k, u, hu, hall.trans hcalls⟩

/-- The same key on both transports: the task of the ring has injected it, the other has read
a part of the frame, and both go on to the same calls. -/
theorem one_key_agrees : ∃ s r calls,
    exec step idleKeys (injectOne++List.replicate 12 .task) = some s ∧
    exec KeyInjectRtt.step KeyInjectRtt.idleRtt KeyInjectRtt.sendOne = some r ∧
    s.calls = [(0x0A, true, 0x01)] ∧ r.calls = [] ∧ s.calls <+: calls ∧
    (∃ k u, exec step s (List.replicate k .task) = some u ∧ u.calls = calls) ∧
    ∃ k u, exec KeyInjectRtt.step r (List.replicate k .task) = some u ∧ u.calls = calls := by
  have hswd : (exec step idleKeys (injectOne++List.replicate 12 .task)).map
      (fun s => (s.queued, s.mode, s.calls)) =
      some ([⟨0x8A, 0x01⟩], keyInjectModeSwd, [(0x0A, true, 0x01)]) := by decide +kernel
  have hrtt : (exec KeyInjectRtt.step KeyInjectRtt.idleRtt KeyInjectRtt.sendOne).map
      (fun r => (r.sent, r.mode, r.calls)) =
      some ([⟨typeKeyEvent, [0x8A, 0x01]⟩], keyInjectModeRtt, []) := by decide +kernel
  obtain ⟨s, hs, hshow⟩ := Option.map_eq_some_iff.mp hswd
  obtain ⟨r, hr, hshow'⟩ := Option.map_eq_some_iff.mp hrtt
  simp only [Prod.mk.injEq] at hshow hshow'
  obtain ⟨hqueued, hmode, hcalls⟩ := hshow
  obtain ⟨hsent, hmode', hcalls'⟩ := hshow'
  obtain ⟨calls, hfront, -, hreach, hreach'⟩ := transports_agree _ _ _ (by decide) _ _ _ _ s r
    hs hr (by rw [hqueued]; decide) (by rw [hsent, hqueued]; rfl)
  exact ⟨s, r, calls, hs, hr, hcalls, hcalls', hfront, hreach hmode, hreach' hmode'⟩

end MokyaLora.KeyInject
