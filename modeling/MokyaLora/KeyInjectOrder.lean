import MokyaLora.KeyInjectInvariant

/-!
# Injected events arrive in order

What the host was asked for is queued, what is queued is taken, and nothing is taken
twice or out of order. The steps of the task alone empty the ring.
-/

set_option autoImplicit false

namespace MokyaLora.KeyInject
open Lib.Schedule Lib.Counter MokyaLora.Keypad

def Act.requested : Act → List Event
  | .queueEvents evs => evs
  | _ => []

def HostPc.rest : HostPc → List Event
  | .queue evs => evs
  | .producerRead evs _ => evs
  | .consumerRead evs _ _ => evs
  | .writing _ batch evs _ => batch++evs
  | _ => []

theorem host_rest (s t : System) (hs : s.hostStep = some t) :
    t.queued++t.host.rest = s.queued++s.host.rest := by
  cases hp : s.host with
  | offline =>
    simp only [System.hostStep, hp] at hs
    split at hs <;> cases hs <;> simp [HostPc.rest, hp]
  | idle => simp [System.hostStep, hp] at hs
  | queue evs => cases evs <;> simp [System.hostStep, hp] at hs <;> simp [← hs, HostPc.rest]
  | producerRead evs producer =>
    simp [System.hostStep, hp] at hs
    simp [← hs, HostPc.rest]
  | consumerRead evs producer consumer =>
    simp only [System.hostStep, hp] at hs
    split at hs <;> cases hs <;> simp [HostPc.rest]
  | writing ops batch evs producer =>
    cases ops <;> simp [System.hostStep, hp] at hs <;> simp [← hs, HostPc.rest]
  | queued =>
    simp [System.hostStep, hp] at hs
    simp [← hs, HostPc.rest]
  | waiting target =>
    simp only [System.hostStep, hp] at hs
    split at hs <;> cases hs <;> simp [HostPc.rest, hp]

theorem step_rest (s t : System) (a : Act) (hs : step s a = some t) :
    t.queued++t.host.rest = s.queued++s.host.rest++a.requested := by
  cases a with
  | task =>
    simp only [step, Option.some.injEq] at hs
    have hsame : t.queued = s.queued ∧ t.host = s.host := by
      rw [← hs]
      unfold System.taskStep
      repeat' split
      all_goals exact ⟨rfl, rfl⟩
    rw [hsame.1, hsame.2]
    simp [Act.requested]
  | host => simpa [Act.requested] using host_rest s t hs
  | queueEvents evs =>
    simp only [step] at hs
    split at hs
    · rename_i hidle
      rw [← Option.some.inj hs]
      simp [HostPc.rest, hidle, Act.requested]
    · cases hs
  | timeout =>
    simp only [step] at hs
    split at hs
    · rename_i target hwait
      rw [← Option.some.inj hs]
      simp [HostPc.rest, hwait, Act.requested]
    · cases hs
  | setKeyInjectMode mode =>
    simp only [step, Option.some.injEq] at hs
    simp [← hs, Act.requested]
  | others keys =>
    simp only [step, Option.some.injEq] at hs
    simp [← hs, Act.requested]

theorem exec_rest (acts : List Act) (s t : System) (he : exec step s acts = some t) :
    t.queued++t.host.rest = s.queued++s.host.rest++acts.flatMap Act.requested := by
  induction acts generalizing s with
  | nil =>
    simp only [exec, Option.some.injEq] at he
    simp [he]
  | cons a acts ih =>
    obtain ⟨u, hu, ht⟩ := Option.bind_eq_some_iff.mp he
    rw [ih u ht, step_rest s u a hu, List.flatMap_cons, List.append_assoc]

/-- Steps of the task before it has released everything: seven for each event, three to
read the producer index again, and those of the start. -/
def System.left (s : System) : ℕ :=
  10*(s.queued.length-s.released)+
    match s.task with
    | .boot k => 20-min k 5
    | .top => 9
    | .selected => 8
    | .loop prod => if s.buf.consumerIdx = prod then 10 else 7
    | .draining _ => 6
    | .slot _ _ => 5
    | .key _ _ _ => 4
    | .event _ _ => 3
    | .forwarded _ _ => 2
    | .counted _ => 1

def Drained (s : System) : Prop := (∀ k, s.task ≠ .boot k) ∧ ¬ s.released < s.queued.length

theorem boot_left (s : System) (k : ℕ) (hp : s.task = .boot k) (hi : Booting k s) :
    s.taskStep.left < s.left := by
  have hpc := boot_pc s.buf k
  have hstep : s.taskStep = { s with buf := (s.buf.boot k).1, task := (s.buf.boot k).2 } := by
    simp [System.taskStep, hp]
  rw [hstep]
  by_cases hk : k < 4
  · rw [if_pos hk] at hpc
    simp only [System.left, hi.queued, hp, hpc, List.length_nil, Nat.zero_sub]
    omega
  · rw [if_neg hk] at hpc
    simp only [System.left, hi.queued, hp, hpc, List.length_nil, Nat.zero_sub]
    omega

theorem running_left (s : System) (hi : Running s) (hfew : s.queued.length < 4294967296)
    (hmode : s.mode = keyInjectModeSwd) (hlt : s.released < s.queued.length) :
    s.taskStep.left < s.left := by
  have hk := hi.task
  have hc := hi.consumer
  have hbelow := hi.below
  cases hp : s.task with
  | boot k =>
    rw [hp] at hk
    exact hk.elim
  | top => simp [System.left, System.taskStep, hp, hmode, System.released]
  | selected =>
    have hne : s.buf.consumerIdx ≠ s.buf.producerIdx := by
      rw [hc, hi.producer, Ne, eq_comm, ofNat_eq_iff _ _ (by omega) (by omega)]
      omega
    simp [System.left, System.taskStep, hp, hne, System.released]
  | loop prod =>
    by_cases he : s.buf.consumerIdx = prod <;>
      simp [System.left, System.taskStep, hp, he, System.released]
  | draining prod => simp [System.left, System.taskStep, hp, System.released]
  | slot prod idx => simp [System.left, System.taskStep, hp, System.released]
  | key prod idx ev => simp [System.left, System.taskStep, hp, System.released]
  | event prod e => simp [System.left, System.taskStep, hp, System.released]
  | forwarded prod ok => simp [System.left, System.taskStep, hp, System.released]
  | counted prod =>
    rw [hp] at hk
    have hpos := List.length_pos_of_ne_nil hk.2
    have hr : s.released = s.taken.length-1 := by simp [System.released, hp]
    rw [hr] at hlt
    simp only [System.left, System.taskStep, hp, System.released]
    split <;> omega

theorem task_left (s : System) (hi : Inv s) (hfew : s.queued.length < 4294967296)
    (hmode : s.mode = keyInjectModeSwd) (hg : ¬ Drained s) : s.taskStep.left < s.left := by
  by_cases hb : ∃ k, s.task = .boot k
  · obtain ⟨k, hp⟩ := hb
    exact boot_left s k hp (hi.booting k hp)
  · have hb' : ∀ k, s.task ≠ .boot k := fun k hk => hb ⟨k, hk⟩
    have hlt : s.released < s.queued.length := by
      by_contra hnot
      exact hg ⟨hb', hnot⟩
    exact running_left s (hi.running hb' hfew) hfew hmode hlt

theorem task_frame (s : System) : s.taskStep.queued = s.queued ∧ s.taskStep.mode = s.mode := by
  unfold System.taskStep
  repeat' split
  all_goals exact ⟨rfl, rfl⟩

theorem drained_running (s : System) (hi : Running s) (h : ¬ s.released < s.queued.length) :
    s.taken.map Prod.fst = s.queued ∧ s.buf.consumerIdx = s.buf.producerIdx ∧
    s.buf.pushed = UInt32.ofNat (s.taken.countP (fun x => x.2)) ∧
    s.buf.rejected = UInt32.ofNat (s.taken.countP (fun x => !x.2)) := by
  have hbelow := hi.below
  have hreleased := released_le s
  have htaken : s.taken.length = s.queued.length := by omega
  have hshown : s.shown = s.taken := by
    have hk := hi.task
    unfold System.shown
    split
    · rename_i prod ok hp
      rw [hp] at hk
      obtain ⟨⟨n, -, hv, hn⟩, -⟩ := hk
      omega
    · rfl
  refine ⟨?_, ?_, hshown ▸ hi.pushed, hshown ▸ hi.rejected⟩
  · rw [hi.taken, htaken, List.take_length]
  · rw [hi.consumer, hi.producer, show s.released = s.queued.length by omega]

theorem taken_front (s : System) (hi : Inv s) (hfew : s.queued.length < 4294967296) :
    s.taken.map Prod.fst <+: s.queued := by
  by_cases hb : ∃ k, s.task = .boot k
  · obtain ⟨k, hp⟩ := hb
    simp [(hi.booting k hp).taken]
  · rw [(hi.running (fun k hk => hb ⟨k, hk⟩) hfew).taken]
    exact List.take_prefix _ _

theorem task_drains (s : System) (hi : Inv s) (hfew : s.queued.length < 4294967296)
    (hmode : s.mode = keyInjectModeSwd) :
    ∃ k u, exec step s (List.replicate k .task) = some u ∧ u.taken.map Prod.fst = s.queued ∧
      u.buf.consumerIdx = u.buf.producerIdx ∧
      u.buf.pushed = UInt32.ofNat (u.taken.countP (fun x => x.2)) ∧
      u.buf.rejected = UInt32.ofNat (u.taken.countP (fun x => !x.2)) := by
  obtain ⟨k, u, hu, ⟨hui, hqueued, -⟩, hne, hdone⟩ := exec_until step .task
    (fun u => Inv u ∧ u.queued = s.queued ∧ u.mode = keyInjectModeSwd) Drained System.left
    (fun u hs hg => ⟨u.taskStep, rfl, ⟨inv_task u hs.1, (task_frame u).1.trans hs.2.1,
      (task_frame u).2.trans hs.2.2⟩, task_left u hs.1 (hs.2.1 ▸ hfew) hs.2.2 hg⟩)
    s ⟨hi, rfl, hmode⟩
  have hrun := hui.running hne (hqueued ▸ hfew)
  exact ⟨k, u, hu, hqueued ▸ drained_running u hrun hdone⟩

/-- However the accesses of host and task interleave, the events that the task takes are
the first of those that the host asked for, each one once, in order and whole; and in SWD
mode the steps of the task alone bring it to the last one queued, with each counted. -/
theorem swd_events_in_order (buf : KeyInjectBuf) (keys : KeyEvents)
    (hmagic : buf.magic ≠ keyInjectMagic) (acts : List Act) (t : System)
    (he : exec step (System.boot buf keys) acts = some t) (hfew : t.queued.length < 4294967296) :
    t.queued++t.host.rest = acts.flatMap Act.requested ∧ t.taken.map Prod.fst <+: t.queued ∧
    (t.mode = keyInjectModeSwd → ∃ k u, exec step t (List.replicate k .task) = some u ∧
      u.taken.map Prod.fst = t.queued ∧ u.buf.consumerIdx = u.buf.producerIdx ∧
      u.buf.pushed = UInt32.ofNat (u.taken.countP (fun x => x.2)) ∧
      u.buf.rejected = UInt32.ofNat (u.taken.countP (fun x => !x.2))) := by
  have hi := inv_exec buf keys hmagic acts t he
  have hrest := exec_rest acts _ t he
  exact ⟨by simpa [System.boot, HostPc.rest] using hrest, taken_front t hi hfew,
    task_drains t hi hfew⟩

def injectOne : List Act :=
  List.replicate 5 .task++[.host, .queueEvents [⟨0x8A, 0x01⟩], .host, .task, .host, .host, .task,
    .host, .host, .host]

def idleKeys : System := System.boot ⟨0, 7, 9, 0, 0, fun _ => 0xFF⟩ (KeyEvents.init true true)

theorem inject_one_in_order : ∃ t, exec step idleKeys injectOne = some t ∧
    t.taken.map Prod.fst <+: [⟨0x8A, 0x01⟩] ∧
    ∃ k u, exec step t (List.replicate k .task) = some u ∧
      u.taken.map Prod.fst = [⟨0x8A, 0x01⟩] := by
  have hrun : (exec step idleKeys injectOne).map (fun t => (t.queued, t.mode)) =
      some ([⟨0x8A, 0x01⟩], keyInjectModeSwd) := by decide +kernel
  obtain ⟨t, ht, hshow⟩ := Option.map_eq_some_iff.mp hrun
  obtain ⟨hqueued, hmode⟩ := Prod.mk.inj hshow
  obtain ⟨-, hfront, hdrain⟩ := swd_events_in_order _ _ (by decide) injectOne t ht
    (by rw [hqueued]; decide)
  obtain ⟨k, u, hu, htaken, -⟩ := hdrain hmode
  exact ⟨t, ht, hqueued ▸ hfront, k, u, hu, hqueued ▸ htaken⟩

end MokyaLora.KeyInject
