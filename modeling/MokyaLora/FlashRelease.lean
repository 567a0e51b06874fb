import MokyaLora.FlashExclusion

/-!
# Who still waits when a call has ended

In timely runs an idle call leaves its lock at IDLE and a handler spinning on it
goes home. Two handlers can hold each other: each spins on a lock whose owner is
suspended below the other handler. The layout of the shared memory announces this
mutual waiting for simultaneous attempts; nothing but such an attempt leads to it
and nothing leads out of it.
-/

set_option autoImplicit false

namespace MokyaLora.FlashLock
open Lib.Schedule

/-- Both cores spin in their handlers, each on a lock that is not at IDLE. -/
def MutualWait (s : System) : Prop := ∀ c, (s.parker c).Spinning ∧ s.lock c ≠ .idle

theorem mutual_wait_step (s t : System) (a : Act) (h : MutualWait s) (hs : step s a = some t) :
    MutualWait t := by
  cases a with
  | publishReady d =>
    simp only [step, Option.some.injEq] at hs
    exact hs ▸ h
  | writer d =>
    simp only [step, Option.ite_none_right_eq_some] at hs
    have hspin := (h d).1
    rw [hs.1] at hspin
    exact hspin.elim
  | parker d =>
    simp only [step, Option.ite_none_right_eq_some, Option.some.injEq] at hs
    obtain ⟨-, rfl⟩ := hs
    have hl := (h d.peer).2
    cases hk : s.parker d with
    | spin saved =>
      have hsame : parkerStep s d (.spin saved) = s := by
        simp only [parkerStep, if_neg hl, System.setParker, ← hk, Function.update_eq_self]
      rw [hsame]
      exact h
    | _ =>
      have hspin := (h d).1
      rw [hk] at hspin
      exact hspin.elim

theorem mutual_wait_forever (acts : List Act) (s t : System) (h : MutualWait s)
    (he : exec step s acts = some t) : MutualWait t :=
  exec_invariant step (fun _ _ => True) MutualWait (fun s a t hs _ => mutual_wait_step s t a hs)
    acts s t h (along_of_forall step _ (fun _ _ => trivial) acts s) he

/-- A late acknowledgement strands the handler: the condition on the runs is
the exact one. -/
theorem untimely_strands (s : System) (c : Core) (w : Wait) (haway : s.parker c = .away)
    (hw : s.writer c = .storeIdle w) (hk : s.parker c.peer = .storeParked) :
    ∃ t, exec step s [.writer c, .parker c.peer, .parker c.peer] = some t ∧
      t.writer c = .idle ∧ t.lock c = .parked ∧ (t.parker c.peer).Spinning := by
  obtain ⟨u, hu, huw, huk⟩ : ∃ u, step s (.writer c) = some u ∧ u.writer c = .idle ∧
      u.parker c.peer = .storeParked :=
    ⟨_, if_pos haway, by simp [hw, writerStep, System.setWriter],
      by simpa [hw, writerStep, System.setWriter, System.setLock] using hk⟩
  obtain ⟨v, hv, hvw, hvl, hvk⟩ : ∃ v, step u (.parker c.peer) = some v ∧ v.writer = u.writer ∧
      v.lock c = .parked ∧ v.parker c.peer = .mask :=
    ⟨_, if_pos (by simp [huk]), by simp [huk, parkerStep, System.setParker, System.setLock],
      by simp [huk, parkerStep, System.setParker, System.setLock],
      by simp [huk, parkerStep, System.setParker]⟩
  refine ⟨parkerStep v c.peer .mask, ?_, ?_, ?_, ?_⟩
  · simp only [exec, hu, hv, Option.bind_some]
    simp [step, hvk]
  · rw [(parker_frame v c.peer .mask).2.1, hvw, huw]
  · rw [← hvl]
    simp [parkerStep, System.setParker, System.setIrq]
  · simp [parkerStep, System.setParker, ParkerPc.Spinning]

/-- In timely runs no handler is stranded: when a call has ended its lock is at
IDLE, and a peer that still spins leaves the loop with its next step. Both cores
wait for each other only when each is inside a call that has asked for a park,
and then for good. -/
theorem no_stranded_parker (acts : List Act) (t : System)
    (ho : Along step Timely System.init acts) (he : exec step System.init acts = some t) :
    (∀ c, t.writer c = .idle → t.lock c = .idle ∧ ∀ saved, t.parker c.peer = .spin saved →
      step t (.parker c.peer) = some (t.setParker c.peer (.restore saved))) ∧
    (MutualWait t → (∀ c, (t.writer c).Asked) ∧
      ∀ more u, exec step t more = some u → MutualWait u) := by
  have hi := handshake_exec acts t ho he
  constructor
  · intro c hw
    have hl : t.lock c = .idle := by
      simpa [hw, WriterPc.Asked] using (hi c).asked
    refine ⟨hl, ?_⟩
    intro saved hk
    simp [step, hk, parkerStep, hl]
  · intro h
    exact ⟨fun c => (hi c).asked.mp (h c).2, fun more u hu => mutual_wait_forever more t u h hu⟩

def simultaneous : List Act :=
  [.publishReady .core0, .publishReady .core1]++List.replicate 4 (.writer .core0)++
    List.replicate 4 (.writer .core1)++List.replicate 5 (.parker .core0)++
    List.replicate 5 (.parker .core1)

def timely (s : System) : Act → Bool
  | .writer c => match s.writer c with
    | .storeIdle _ => decide (s.parker c.peer ≠ .storeParked)
    | _ => true
  | _ => true

theorem timely_iff (s : System) (a : Act) : timely s a = true ↔ Timely s a := by
  cases a with
  | writer c => cases hw : s.writer c <;> simp [timely, Timely, hw]
  | _ => simp [timely, Timely]

instance (s : System) (a : Act) : Decidable (Timely s a) := decidable_of_iff _ (timely_iff s a)

/-- A call of core 0 from beginning to end; core 1 still spins in its handler. -/
def endedCall : List Act :=
  [.publishReady .core0, .publishReady .core1]++List.replicate 4 (.writer .core0)++
    List.replicate 5 (.parker .core1)++List.replicate 5 (.writer .core0)

/-- The handler of the ended call goes home, and then both cores request. -/
theorem simultaneous_waits_for_calls :
    (∃ t, exec step System.init endedCall = some t ∧ t.writer .core0 = .idle ∧
      t.parker .core1 = .spin true ∧ t.lock .core0 = .idle ∧
      step t (.parker .core1) = some (t.setParker .core1 (.restore true))) ∧
    ∃ t, exec step System.init
        (endedCall++List.replicate 2 (.parker .core1)++simultaneous) = some t ∧
      MutualWait t ∧ (∀ c, (t.writer c).Asked) ∧
      ∀ more u, exec step t more = some u → MutualWait u := by
  constructor
  · obtain ⟨hlock, hgo⟩ := (no_stranded_parker endedCall _ (by decide) rfl).1 .core0 rfl
    exact ⟨_, rfl, rfl, rfl, hlock, hgo true rfl⟩
  · obtain ⟨t, ht, hw⟩ : ∃ t, exec step System.init
        (endedCall++List.replicate 2 (.parker .core1)++simultaneous) = some t ∧ MutualWait t :=
      ⟨_, rfl, fun c => by cases c <;> decide⟩
    exact ⟨t, ht, hw, (no_stranded_parker _ t (by decide) ht).2 hw⟩

theorem simultaneous_mutual_wait : ∃ t, exec step System.init simultaneous = some t ∧
    MutualWait t ∧ ∀ more u, exec step t more = some u → MutualWait u := by
  obtain ⟨t, ht, hw⟩ : ∃ t, exec step System.init simultaneous = some t ∧ MutualWait t :=
    ⟨_, rfl, fun c => by cases c <;> decide⟩
  exact ⟨t, ht, hw, fun more u hu => mutual_wait_forever more t u hw hu⟩

end MokyaLora.FlashLock
