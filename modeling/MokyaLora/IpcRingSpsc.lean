import MokyaLora.IpcRingInvariant

/-!
# One producer and one consumer

With a single producer every slot write is orderly, so the invariant holds in
every run, however the two parties' accesses interleave and however often the
indexes wrap. The ring is then a bounded first-in first-out queue.
-/

set_option autoImplicit false

namespace MokyaLora.IpcRing
open Lib.Schedule Lib.Counter

def System.queue {P : Type} (s : System P) : List Message := s.pushed.drop s.popped.length

theorem inv_pending {P : Type} {c : SlotCount} {s : System P} (hi : Inv c s) :
    s.ring.pending.toNat = s.pushed.length-s.popped.length := by
  have := hi.below
  have := hi.room
  have := c.lt
  rw [Ring.pending, hi.head, hi.tail, toNat_sub_ofNat _ _ (by omega) (by omega)]

theorem inv_queue_length {P : Type} {c : SlotCount} {s : System P} (hi : Inv c s) :
    s.ring.pending.toNat = s.queue.length ∧ s.queue.length ≤ c.n := by
  have := hi.room
  rw [inv_pending hi, System.queue, List.length_drop]
  omega

theorem inv_free_slots {P : Type} {c : SlotCount} {s : System P} (hi : Inv c s) :
    (s.ring.freeSlots c).toNat = c.n-s.queue.length := by
  have hq := inv_queue_length hi
  have := c.lt
  simp only [Ring.freeSlots, UInt32.toNat_sub, UInt32.toNat_ofNat', hq.1]
  omega

theorem inv_popped_first {P : Type} {c : SlotCount} {s : System P} (hi : Inv c s) :
    s.popped <+: s.pushed.map Message.received := by
  rw [hi.taken]
  exact (List.take_prefix _ _).map _

theorem inv_all_popped {P : Type} {c : SlotCount} {s : System P} (hi : Inv c s)
    (h : ¬ s.popped.length < s.pushed.length) : s.popped = s.pushed.map Message.received := by
  have htake := hi.taken
  rwa [List.take_of_length_le (by omega)] at htake

theorem inv_drained {P : Type} {c : SlotCount} {s : System P} (hi : Inv c s)
    (h : s.ring.pending = 0) : s.popped = s.pushed.map Message.received := by
  have hp := inv_pending hi
  rw [h, UInt32.toNat_zero] at hp
  exact inv_all_popped hi (by omega)

/-- Steps of the consumer before it has popped everything: one round of four for
each message, and one more if it has loaded the head before a publication. -/
def System.left {P : Type} (s : System P) : ℕ :=
  5*(s.pushed.length-s.popped.length)+
    match s.consumer with
    | .idle => 4
    | .tailLoaded _ => 3
    | .headLoaded tail head => if head = tail then 5 else 2
    | .copied _ _ => 1

theorem pop_left {P : Type} {c : SlotCount} {s : System P} (hi : Inv c s)
    (h : s.popped.length < s.pushed.length) :
    (s.afterPop (popStep c s.ring s.consumer)).left < s.left := by
  have hk := hi.consumer
  cases hp : s.consumer with
  | idle => simp [System.left, System.afterPop, popStep, hp]
  | tailLoaded tail =>
    rw [hp] at hk
    have hroom := hi.room
    have hn := c.lt
    have hne : ¬ s.ring.ctrl.head = tail := by
      rw [show tail = UInt32.ofNat s.popped.length from hk, hi.head, ofNat_eq_iff _ _ (by omega)
        (by omega)]
      omega
    simp [System.left, System.afterPop, popStep, hp, hne]
  | headLoaded tail head =>
    by_cases he : head = tail <;> simp [System.left, System.afterPop, popStep, hp, he]
  | copied tail got =>
    simp [System.left, System.afterPop, popStep, hp]
    omega

/-- Inside a call of its own the only producer's head load is never stale. -/
def Fresh (s : System Unit) : Prop :=
  match s.producer () with
  | .headLoaded _ _ => s.seen () = s.pushed.length
  | .tailLoaded _ _ _ => s.seen () = s.pushed.length
  | _ => True

theorem fresh_orderly (c : SlotCount) (s : System Unit) (hf : Fresh s) (a : Act Unit) :
    Orderly c s a := by
  cases a with
  | call p m => trivial
  | pop => trivial
  | push p =>
    simp only [Fresh] at hf
    simp only [Orderly]
    cases hp : s.producer () with
    | tailLoaded m head tail =>
      rw [hp] at hf
      intro _
      refine ⟨hf, ?_⟩
      rintro ⟨⟩ hw
      rw [hp] at hw
      exact hw
    | _ => trivial

theorem fresh_step (c : SlotCount) (s t : System Unit) (a : Act Unit) (hf : Fresh s)
    (hs : step c s a = some t) : Fresh t := by
  cases a with
  | call p m =>
    simp only [step, Option.ite_none_right_eq_some, Option.some.injEq] at hs
    obtain ⟨-, rfl⟩ := hs
    simp [Fresh]
  | pop =>
    simp only [step, Option.some.injEq] at hs
    subst hs
    exact hf
  | push p =>
    simp only [step, Option.ite_none_left_eq_some, Option.some.injEq] at hs
    obtain ⟨-, rfl⟩ := hs
    simp only [Fresh] at hf
    cases hp : s.producer () with
    | idle => simp [Fresh, System.afterPush, pushStep]
    | called m =>
      by_cases hm : ipcMsgPayloadMax < m.payload.length <;>
        simp [Fresh, System.afterPush, System.lookedAt, pushStep, hp, hm]
    | headLoaded m head =>
      rw [hp] at hf
      simpa [Fresh, System.afterPush, System.lookedAt, pushStep, hp] using hf
    | tailLoaded m head tail =>
      by_cases hfull : c.n ≤ (head-tail).toNat <;>
        simp [Fresh, System.afterPush, pushStep, hfull]
    | written m head => simp [Fresh, System.afterPush, pushStep]

theorem spsc_inv (c : SlotCount) (acts : List (Act Unit)) (t : System Unit)
    (he : exec (step c) System.init acts = some t) : Inv c t := by
  have hstep : ∀ s a u, Inv c s ∧ Fresh s → step c s a = some u → Inv c u ∧ Fresh u :=
    fun s a u h hs => ⟨inv_step c s u a h.1 (fresh_orderly c s h.2 a) hs, fresh_step c s u a h.2 hs⟩
  exact inv_exec c acts t
    (along_of_invariant _ _ _ (fun s a h => fresh_orderly c s h.2 a) hstep acts _
      ⟨inv_init c, trivial⟩) he

/-- Every step of the ring is a step of the bounded queue or leaves it alone. -/
theorem queue_step {P : Type} [DecidableEq P] (c : SlotCount) (s t : System P) (a : Act P)
    (hi : Inv c s) (ho : Orderly c s a) (hs : step c s a = some t) :
    t.queue = s.queue ∧ t.popped = s.popped ∨
    (∃ m, s.queue.length < c.n ∧ t.queue = s.queue++[m] ∧ t.popped = s.popped) ∨
    (∃ m, s.queue = m::t.queue ∧ t.popped = s.popped++[m.received]) := by
  have ht := inv_step c s t a hi ho hs
  have hb := hi.below
  cases a with
  | call p m =>
    simp only [step, Option.ite_none_right_eq_some, Option.some.injEq] at hs
    obtain ⟨-, rfl⟩ := hs
    exact Or.inl ⟨rfl, rfl⟩
  | push p =>
    simp only [step, Option.ite_none_left_eq_some, Option.some.injEq] at hs
    obtain ⟨-, rfl⟩ := hs
    by_cases hret : (pushStep c s.ring (s.producer p)).2.2 = some true
    · cases hp : s.producer p with
      | written m head =>
        have hr := ht.room
        refine Or.inr (Or.inl ⟨m, ?_, ?_, rfl⟩)
        · simp [System.afterPush, pushStep, hp, System.publishedBy] at hr
          simp only [System.queue, List.length_drop]
          omega
        · simp only [System.queue, System.afterPush, pushStep, hp, System.publishedBy, if_true]
          exact List.drop_append_of_le_length hb
      | idle => simp [pushStep, hp] at hret
      | called m => simp only [pushStep, hp] at hret; split at hret <;> simp at hret
      | headLoaded m head => simp [pushStep, hp] at hret
      | tailLoaded m head tail => simp only [pushStep, hp] at hret; split at hret <;> simp at hret
    · exact Or.inl ⟨by simp [System.queue, System.afterPush, hret], rfl⟩
  | pop =>
    simp only [step, Option.some.injEq] at hs
    subst hs
    have hk := hi.consumer
    cases hp : s.consumer with
    | idle => exact Or.inl (by simp [System.queue, System.afterPop, popStep])
    | tailLoaded tail => exact Or.inl (by simp [System.queue, System.afterPop, popStep])
    | headLoaded tail head =>
      by_cases he : head = tail <;>
        exact Or.inl (by simp [System.queue, System.afterPop, popStep, he])
    | copied tail got =>
      rw [hp] at hk
      obtain ⟨-, hlt, hg⟩ := hk
      refine Or.inr (Or.inr ⟨s.pushed[s.popped.length], ?_, ?_⟩)
      · simp only [System.queue, System.afterPop, popStep, Option.getD_some, Option.toList_some,
          List.length_append, List.length_singleton]
        exact List.drop_eq_getElem_cons hlt
      · simp [System.afterPop, popStep, hg]

/-- One call of push from a program counter on: the ring before and after each
of its own steps, with anything done by others in between, and its result. -/
inductive Call (c : SlotCount) : PushPc → List (Ring × Ring) → Bool → Prop
  | ret (r : Ring) (pc : PushPc) (b : Bool) (h : (pushStep c r pc).2.2 = some b) :
      Call c pc [(r, (pushStep c r pc).1)] b
  | next (r : Ring) (pc : PushPc) (l : List (Ring × Ring)) (b : Bool)
      (h : (pushStep c r pc).2.2 = none) (rest : Call c (pushStep c r pc).2.1 l b) :
      Call c pc ((r, (pushStep c r pc).1)::l) b

def OnlyOverflow (r r' : Ring) : Prop :=
  r'.ctrl.head = r.ctrl.head ∧ r'.ctrl.tail = r.ctrl.tail ∧ r'.slots = r.slots

theorem call_written (c : SlotCount) (pc : PushPc) (l : List (Ring × Ring)) (b : Bool)
    (hc : Call c pc l b) (hw : pc.Writing) : b = true := by
  cases hc with
  | ret r pc b h =>
    cases pc with
    | written m head => simpa [pushStep] using h.symm
    | _ => exact hw.elim
  | next r pc l b h rest =>
    cases pc with
    | written m head => simp [pushStep] at h
    | _ => exact hw.elim

theorem push_step_frame (c : SlotCount) (r : Ring) (pc : PushPc) (hw : ¬ pc.Writing)
    (hn : ¬ (pushStep c r pc).2.1.Writing) : OnlyOverflow r (pushStep c r pc).1 := by
  cases pc with
  | idle => exact ⟨rfl, rfl, rfl⟩
  | called m => simp only [pushStep]; split <;> exact ⟨rfl, rfl, rfl⟩
  | headLoaded m head => exact ⟨rfl, rfl, rfl⟩
  | tailLoaded m head tail =>
    by_cases hfull : c.n ≤ (head-tail).toNat
    · simp only [pushStep, if_pos hfull]
      exact ⟨rfl, rfl, rfl⟩
    · simp only [pushStep, if_neg hfull] at hn
      exact absurd trivial hn
  | written m head => exact absurd trivial hw

theorem call_false_frame (c : SlotCount) (pc : PushPc) (l : List (Ring × Ring))
    (hc : Call c pc l false) : ∀ io ∈ l, OnlyOverflow io.1 io.2 := by
  generalize hb : false = b at hc
  induction hc with
  | ret r pc b h =>
    subst hb
    intro io hio
    rw [List.mem_singleton.mp hio]
    have hw : ¬ pc.Writing := fun hw => by
      simpa using call_written c pc _ false (.ret r pc false h) hw
    apply push_step_frame c r pc hw
    cases pc with
    | tailLoaded m head tail =>
      by_cases hfull : c.n ≤ (head-tail).toNat
      · simp only [pushStep, if_pos hfull]; exact id
      · simp [pushStep, hfull] at h
    | called m =>
      by_cases hm : ipcMsgPayloadMax < m.payload.length
      · simp only [pushStep, if_pos hm]; exact id
      · simp [pushStep, hm] at h
    | _ => exact id
  | next r pc l b h rest ih =>
    subst hb
    intro io hio
    rcases List.mem_cons.mp hio with rfl | hio
    · apply push_step_frame c r pc
      · exact fun hw => by simpa using call_written c pc _ false (.next r pc l false h rest) hw
      · exact fun hw => by simpa using call_written c _ _ false rest hw
    · exact ih rfl io hio

/-- In every state of every interleaving the messages popped are the first of
those whose push returned true, each as it was sent; when the ring is drained
none is missing. The index difference stays within the ring, and a push that
returns false has written nothing but the overflow counter. -/
theorem spsc_ring_fifo (c : SlotCount) (acts : List (Act Unit)) (t : System Unit)
    (he : exec (step c) System.init acts = some t) :
    t.popped <+: t.pushed.map Message.received ∧
    t.ring.pending.toNat = t.queue.length ∧ t.ring.pending.toNat ≤ c.n ∧
    (t.ring.pending = 0 → t.popped = t.pushed.map Message.received) ∧
    ∀ m l, Call c (.called m) l false → ∀ io ∈ l, OnlyOverflow io.1 io.2 := by
  have hi := spsc_inv c acts t he
  have hq := inv_queue_length hi
  exact ⟨inv_popped_first hi, hq.1, hq.1 ▸ hq.2, inv_drained hi,
    fun m l hc => call_false_frame c _ l hc⟩

def sendOne : List (Act Unit) :=
  [.call () ⟨0x06, 0, [1, 2, 3], by decide⟩, .push (), .push (), .push (), .push (),
    .pop, .pop, .pop, .pop]

theorem send_one_fifo : ∃ t : System Unit,
    exec (step ipcRingSlotCount) System.init sendOne = some t ∧ t.popped = [(⟨6, 0, 3⟩, [1, 2, 3])] ∧
    t.popped <+: t.pushed.map Message.received ∧
    t.ring.pending.toNat = t.queue.length ∧ t.ring.pending.toNat ≤ 32 ∧
    (t.ring.pending = 0 → t.popped = t.pushed.map Message.received) ∧
    ∀ m l, Call ipcRingSlotCount (.called m) l false → ∀ io ∈ l, OnlyOverflow io.1 io.2 :=
  ⟨_, rfl, by decide +kernel, spsc_ring_fifo ipcRingSlotCount sendOne _ rfl⟩

end MokyaLora.IpcRing
