import MokyaLora.FlashLock

/-!
# What the handshake keeps, and when it excludes

Unless IDLE is stored between the handler's test of REQUEST and its
acknowledgement, the lock says where both parties stand. It does not say that
the parked core has masked its interrupts, and the poll may run out; runs in
which neither lets a flash operation start keep the two cores apart.
-/

set_option autoImplicit false

namespace MokyaLora.FlashLock
open Lib.Schedule

def WriterPc.Asked : WriterPc → Prop
  | .ringDoorbell => True
  | .waiting _ => True
  | .mask w => w ≠ .notReady
  | .flashOp w _ => w ≠ .notReady
  | .restore w _ => w ≠ .notReady
  | .storeIdle w => w ≠ .notReady
  | _ => False

def ParkerPc.Spinning : ParkerPc → Prop
  | .spin _ => True
  | _ => False

/-- What one lock says about the call and the handler that share it. -/
structure Agree (l : Lock) (w : WriterPc) (p : ParkerPc) : Prop where
  asked : l ≠ .idle ↔ w.Asked
  tested : p = .storeParked → l = .request
  parked : l = .parked → p = .mask ∨ p.Spinning
  acked : w = .mask .acked → l = .parked

def Handshake (s : System) (c : Core) : Prop := Agree (s.lock c) (s.writer c) (s.parker c.peer)

/-- No call stores IDLE while the peer's handler stands between its test of
REQUEST and its store of PARKED. -/
def Timely (s : System) : Act → Prop
  | .writer c => match s.writer c with
    | .storeIdle _ => s.parker c.peer ≠ .storeParked
    | _ => True
  | _ => True

theorem handshake_init (c : Core) : Handshake System.init c where
  asked := by simp [System.init, WriterPc.Asked]
  tested := by simp [System.init]
  parked := by simp [System.init]
  acked := by simp [System.init]

theorem writer_agree (s : System) (c : Core) (hi : Handshake s c)
    (ho : Timely s (.writer c)) :
    Agree ((writerStep s c (s.writer c)).lock c) ((writerStep s c (s.writer c)).writer c)
      (s.parker c.peer) := by
  obtain ⟨h1, h2, h3, h4⟩ := hi
  simp only [Timely] at ho
  cases hp : s.writer c with
  | loadReady =>
    rw [hp] at h1
    simp only [writerStep, System.setWriter, Function.update_self]
    split_ifs <;> constructor <;> simp_all [WriterPc.Asked]
  | waiting i =>
    rw [hp] at h1
    simp only [writerStep, System.setWriter, Function.update_self]
    split_ifs <;> constructor <;> simp_all [WriterPc.Asked]
  | _ =>
    rw [hp] at h1 ho
    constructor <;> simp_all [writerStep, System.setWriter, System.setLock, System.setIrq,
      System.setDoorbell, WriterPc.Asked]

theorem parker_agree (s : System) (c : Core) (hi : Handshake s c.peer) :
    Agree ((parkerStep s c (s.parker c)).lock c.peer) (s.writer c.peer)
      ((parkerStep s c (s.parker c)).parker c) := by
  obtain ⟨h1, h2, h3, h4⟩ := hi
  rw [peer_peer] at h2 h3
  cases hp : s.parker c with
  | testRequest =>
    rw [hp] at h2 h3
    by_cases hl : s.lock c.peer = .request <;> constructor <;>
      simp_all [parkerStep, System.setParker, ParkerPc.Spinning]
  | spin saved =>
    rw [hp] at h2 h3
    by_cases hl : s.lock c.peer = .idle <;> constructor <;>
      simp_all [parkerStep, System.setParker, ParkerPc.Spinning]
  | _ =>
    rw [hp] at h2 h3
    constructor <;> simp_all [parkerStep, System.setParker, System.setLock, System.setIrq,
      System.setDoorbell, ParkerPc.Spinning]

theorem writer_frame (s : System) (c : Core) (pc : WriterPc) :
    (writerStep s c pc).lock c.peer = s.lock c.peer ∧
    (writerStep s c pc).writer c.peer = s.writer c.peer ∧
    (writerStep s c pc).irq c.peer = s.irq c.peer ∧
    (writerStep s c pc).parker = s.parker := by
  cases pc <;> simp [writerStep, System.setWriter, System.setLock, System.setIrq,
    System.setDoorbell]

theorem parker_frame (s : System) (c : Core) (pc : ParkerPc) :
    (parkerStep s c pc).lock c = s.lock c ∧ (parkerStep s c pc).writer = s.writer ∧
    (parkerStep s c pc).irq c.peer = s.irq c.peer ∧
    (parkerStep s c pc).parker c.peer = s.parker c.peer := by
  cases pc <;> simp [parkerStep, System.setParker, System.setLock, System.setIrq,
    System.setDoorbell]

theorem handshake_step (s t : System) (a : Act) (hi : ∀ c, Handshake s c) (ho : Timely s a)
    (hs : step s a = some t) (c : Core) : Handshake t c := by
  cases a with
  | publishReady d =>
    simp only [step, Option.some.injEq] at hs
    exact hs ▸ hi c
  | writer d =>
    simp only [step, Option.ite_none_right_eq_some, Option.some.injEq] at hs
    obtain ⟨-, rfl⟩ := hs
    obtain ⟨hl, hw, -, hk⟩ := writer_frame s d (s.writer d)
    rcases eq_or_peer d c with rfl | rfl
    · rw [Handshake, hk]
      exact writer_agree s c (hi c) ho
    · rw [Handshake, hl, hw, hk]
      exact hi d.peer
  | parker d =>
    simp only [step, Option.ite_none_right_eq_some, Option.some.injEq] at hs
    obtain ⟨-, rfl⟩ := hs
    obtain ⟨hl, hw, -, hk⟩ := parker_frame s d (s.parker d)
    rcases eq_or_peer d c with rfl | rfl
    · rw [Handshake, hl, hw, hk]
      exact hi c
    · rw [Handshake, hw, peer_peer]
      exact parker_agree s d (hi d.peer)

theorem handshake_exec (acts : List Act) (t : System) (ho : Along step Timely System.init acts)
    (he : exec step System.init acts = some t) : ∀ c, Handshake t c :=
  exec_invariant step Timely (fun s => ∀ c, Handshake s c)
    (fun s a t hi ha hs => handshake_step s t a hi ha hs) acts _ t
    (fun c => handshake_init c) ho he

/-- A core spins with its interrupts masked, whatever the locks hold. -/
def Masked (s : System) : Prop := ∀ c saved, s.parker c = .spin saved → s.irq c = false

theorem masked_step (s t : System) (a : Act) (hi : Masked s) (hs : step s a = some t) :
    Masked t := by
  intro c saved h
  cases a with
  | publishReady d =>
    simp only [step, Option.some.injEq] at hs
    subst hs
    exact hi c saved h
  | writer d =>
    simp only [step, Option.ite_none_right_eq_some, Option.some.injEq] at hs
    obtain ⟨haway, rfl⟩ := hs
    obtain ⟨-, -, hq, hk⟩ := writer_frame s d (s.writer d)
    rw [hk] at h
    rcases eq_or_peer d c with rfl | rfl
    · simp [haway] at h
    · rw [hq]
      exact hi d.peer saved h
  | parker d =>
    simp only [step, Option.ite_none_right_eq_some, Option.some.injEq] at hs
    obtain ⟨-, rfl⟩ := hs
    obtain ⟨-, -, hq, hk⟩ := parker_frame s d (s.parker d)
    rcases eq_or_peer d c with rfl | rfl
    · cases hp : s.parker c with
      | mask => simp [parkerStep, System.setParker, System.setIrq]
      | spin b => 
        rw [hp] at h
        have := hi c b hp
        simpa [parkerStep, System.setParker] using this
      | testRequest =>
        rw [hp] at h
        simp only [parkerStep, System.setParker, Function.update_self] at h
        split_ifs at h
      | _ =>
        rw [hp] at h
        simp [parkerStep, System.setParker, System.setIrq, System.setLock, System.setDoorbell] at h
    · rw [hq]
      rw [hk] at h
      exact hi d.peer saved h

def WriterPc.Holding : WriterPc → Prop
  | .flashOp w _ => w ≠ .notReady
  | .restore w _ => w ≠ .notReady
  | .storeIdle w => w ≠ .notReady
  | _ => False

def Parked (s : System) (c : Core) : Prop := (s.writer c).Holding → (s.parker c.peer).Spinning

/-- A call that has asked for a park starts its operation neither after a poll
that ran out, unless the peer is still spinning from an earlier call, nor while
the peer stands between its store of PARKED and the masking of its interrupts. -/
def Guarded (s : System) : Act → Prop
  | .writer c => match s.writer c with
    | .mask w => w ≠ .notReady →
        (w = .ranOut → (s.parker c.peer).Spinning) ∧ s.parker c.peer ≠ .mask
    | _ => True
  | _ => True

theorem parked_timely (s : System) (hi : ∀ c, Handshake s c) (hp : ∀ c, Parked s c) (a : Act) :
    Timely s a := by
  cases a with
  | writer c =>
    simp only [Timely]
    cases hw : s.writer c with
    | storeIdle w =>
      intro hk
      have hl := (hi c).tested hk
      have hw' : w ≠ .notReady := by
        simpa [hw, WriterPc.Asked, hl] using (hi c).asked
      have hs := hp c (by rw [hw]; exact hw')
      simp [hk, ParkerPc.Spinning] at hs
    | _ => trivial
  | _ => trivial

theorem writer_parked (s : System) (c : Core) (hi : Handshake s c) (hp : Parked s c)
    (ho : Guarded s (.writer c)) :
    ((writerStep s c (s.writer c)).writer c).Holding → (s.parker c.peer).Spinning := by
  intro h
  simp only [Guarded] at ho
  cases hw : s.writer c with
  | mask w =>
    rw [hw] at h ho
    have hw' : w ≠ .notReady := by
      simpa [writerStep, System.setWriter, System.setIrq, WriterPc.Holding] using h
    obtain ⟨hout, hmask⟩ := ho hw'
    cases w with
    | notReady => exact absurd rfl hw'
    | ranOut => exact hout rfl
    | acked => exact ((hi.parked (hi.acked hw)).resolve_left hmask)
  | loadReady =>
    rw [hw] at h
    simp only [writerStep, System.setWriter, Function.update_self] at h
    split_ifs at h <;> exact h.elim
  | waiting i =>
    rw [hw] at h
    simp only [writerStep, System.setWriter, Function.update_self] at h
    split_ifs at h <;> exact h.elim
  | flashOp w saved =>
    rw [hw] at h
    apply hp
    simpa [hw, writerStep, System.setWriter, WriterPc.Holding] using h
  | restore w saved =>
    rw [hw] at h
    apply hp
    simpa [hw, writerStep, System.setWriter, System.setIrq, WriterPc.Holding] using h
  | _ =>
    rw [hw] at h
    simp [writerStep, System.setWriter, System.setLock, System.setDoorbell,
      WriterPc.Holding] at h

theorem parked_step (s t : System) (a : Act) (hi : ∀ c, Handshake s c) (hp : ∀ c, Parked s c)
    (ho : Guarded s a) (hs : step s a = some t) (c : Core) : Parked t c := by
  cases a with
  | publishReady d =>
    simp only [step, Option.some.injEq] at hs
    exact hs ▸ hp c
  | writer d =>
    simp only [step, Option.ite_none_right_eq_some, Option.some.injEq] at hs
    obtain ⟨-, rfl⟩ := hs
    obtain ⟨-, hw, -, hk⟩ := writer_frame s d (s.writer d)
    rcases eq_or_peer d c with rfl | rfl
    · rw [Parked, hk]
      exact writer_parked s c (hi c) (hp c) ho
    · rw [Parked, hw, hk]
      exact hp d.peer
  | parker d =>
    simp only [step, Option.ite_none_right_eq_some, Option.some.injEq] at hs
    obtain ⟨-, rfl⟩ := hs
    obtain ⟨-, hw, -, hk⟩ := parker_frame s d (s.parker d)
    rcases eq_or_peer d c with rfl | rfl
    · rw [Parked, hw, hk]
      exact hp c
    · rw [Parked, hw, peer_peer]
      intro h
      have hspin := hp d.peer h
      rw [peer_peer] at hspin
      have hl : s.lock d.peer ≠ .idle := by
        rw [(hi d.peer).asked]
        cases hpc : s.writer d.peer <;> simp_all [WriterPc.Holding, WriterPc.Asked]
      cases hk' : s.parker d with
      | spin saved => simp [parkerStep, System.setParker, hl, ParkerPc.Spinning]
      | _ => simp [hk', ParkerPc.Spinning] at hspin

/-- In every state of a run whose flash operations start guarded, a core inside
an operation for which it asked the peer to park has that peer spinning with its
interrupts masked. -/
theorem flash_exclusion (acts : List Act) (t : System)
    (ho : Along step Guarded System.init acts) (he : exec step System.init acts = some t)
    (c : Core) (w : Wait) (saved : Bool) (hw : t.writer c = .flashOp w saved)
    (hready : w ≠ .notReady) :
    (t.parker c.peer).Spinning ∧ t.irq c.peer = false := by
  obtain ⟨hi, hp, hm⟩ := exec_invariant step Guarded
    (fun s => (∀ c, Handshake s c) ∧ (∀ c, Parked s c) ∧ Masked s)
    (fun s a u h ha hs => ⟨handshake_step s u a h.1 (parked_timely s h.1 h.2.1 a) hs,
      parked_step s u a h.1 h.2.1 ha hs, masked_step s u a h.2.2 hs⟩)
    acts _ t ⟨handshake_init, fun c h => h.elim, fun c saved h => by simp [System.init] at h⟩ ho he
  have hspin := hp c (by rw [hw]; exact hready)
  refine ⟨hspin, ?_⟩
  cases hk : t.parker c.peer with
  | spin b => exact hm c.peer b hk
  | _ => simp [hk, ParkerPc.Spinning] at hspin

instance : DecidablePred ParkerPc.Spinning
  | .spin _ => isTrue trivial
  | .away => isFalse id
  | .clearDoorbell => isFalse id
  | .testRequest => isFalse id
  | .storeParked => isFalse id
  | .mask => isFalse id
  | .restore _ => isFalse id

instance (s : System) (a : Act) : Decidable (Guarded s a) := by
  unfold Guarded
  split <;> try infer_instance
  split <;> infer_instance

def requestCore0 : List Act := .publishReady .core0::List.replicate 4 (.writer .core1)

def parkedErase : List Act :=
  requestCore0++List.replicate 5 (.parker .core0)++List.replicate 2 (.writer .core1)

theorem parked_erase_exclusion : ∃ t, exec step System.init parkedErase = some t ∧
    t.writer .core1 = .flashOp .acked true ∧
    (t.parker .core0).Spinning ∧ t.irq .core0 = false :=
  ⟨_, rfl, rfl, flash_exclusion parkedErase _ (by decide) rfl .core1 .acked true rfl (by decide)⟩

/-- The handler has stored PARKED and not yet masked its interrupts. -/
def earlyAck : List Act :=
  requestCore0++List.replicate 4 (.parker .core0)++List.replicate 2 (.writer .core1)

theorem poll_exec (s : System) (c : Core) (k i : ℕ) (hk : i+k ≤ mokyaParkWaitSpins)
    (haway : s.parker c = .away) (hl : s.lock c ≠ .parked) (hw : s.writer c = .waiting i) :
    exec step s (List.replicate k (.writer c)) = some (s.setWriter c (.waiting (i+k))) := by
  induction k generalizing s i with
  | zero =>
    simp only [List.replicate_zero, exec, System.setWriter, Nat.add_zero, ← hw,
      Function.update_eq_self]
  | succ k ih =>
    have hs : step s (.writer c) = some (s.setWriter c (.waiting (i+1))) := by
      simp [step, haway, hw, writerStep, hl, show i < mokyaParkWaitSpins by omega]
    rw [List.replicate_succ, exec, hs, Option.bind_some,
      ih (s.setWriter c (.waiting (i+1))) (i+1) (by omega) haway hl (by simp [System.setWriter])]
    simp [System.setWriter, Nat.add_assoc, Nat.add_comm 1 k]

theorem poll_runs_out (s : System) (c : Core) (haway : s.parker c = .away)
    (hl : s.lock c ≠ .parked) (hw : s.writer c = .waiting 0) :
    ∃ t, exec step s (List.replicate mokyaParkWaitSpins (.writer c)++[.writer c, .writer c]) =
        some t ∧
      t.writer c = .flashOp .ranOut (s.irq c) ∧ t.parker = s.parker ∧
      t.irq c.peer = s.irq c.peer := by
  have hout : step (s.setWriter c (.waiting (0+mokyaParkWaitSpins))) (.writer c) =
      some (s.setWriter c (.mask .ranOut)) := by
    simp [step, writerStep, System.setWriter, haway]
  have hop : step (s.setWriter c (.mask .ranOut)) (.writer c) =
      some ((s.setIrq c false).setWriter c (.flashOp .ranOut (s.irq c))) := by
    simp [step, writerStep, System.setWriter, System.setIrq, haway]
  refine ⟨(s.setIrq c false).setWriter c (.flashOp .ranOut (s.irq c)), ?_, ?_, rfl, ?_⟩
  · rw [exec_append, poll_exec s c mokyaParkWaitSpins 0 (by omega) haway hl hw]
    simp only [Option.bind_some, exec, hout, hop]
  · simp [System.setWriter]
  · simp [System.setWriter, System.setIrq]

/-- Core 1 is inside the operation while core 0 runs with interrupts enabled:
inside its handler before the masking, or nowhere near it. -/
theorem flash_exclusion_fails :
    (∃ t, exec step System.init earlyAck = some t ∧ t.writer .core1 = .flashOp .acked true ∧
      t.parker .core0 = .mask ∧ t.irq .core0 = true) ∧
    (∃ acts t, exec step System.init acts = some t ∧ t.writer .core1 = .flashOp .ranOut true ∧
      t.parker .core0 = .away ∧ t.irq .core0 = true) := by
  constructor
  · exact ⟨_, rfl, rfl, rfl, rfl⟩
  · obtain ⟨s, hs, haway, haway0, hl, hw, hq, hq0⟩ :
        ∃ s, exec step System.init requestCore0 = some s ∧ s.parker .core1 = .away ∧
          s.parker .core0 = .away ∧ s.lock .core1 ≠ .parked ∧ s.writer .core1 = .waiting 0 ∧
          s.irq .core1 = true ∧ s.irq .core0 = true :=
      ⟨_, rfl, by decide, by decide, by decide, by decide, by decide, by decide⟩
    obtain ⟨t, ht, htw, htp, htq⟩ := poll_runs_out s .core1 haway hl hw
    exact ⟨_, t, exec_trans step _ _ _ _ _ hs ht, by rw [htw, hq], by rw [htp, haway0],
      htq.trans hq0⟩

end MokyaLora.FlashLock
