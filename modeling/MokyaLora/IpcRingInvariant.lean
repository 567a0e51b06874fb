import MokyaLora.IpcRing
import MokyaLora.Lib.Counter

/-!
# What holds between two atomic steps of the ring

The indexes are residues of the numbers of messages published and released, the
slots between them hold the pending messages, and each task inside `push` or
`pop` knows something true about them. With one producer nothing else is needed;
with several, the invariant survives the runs in which no slot is written from a
stale head or while another slot write is unpublished.
-/

set_option autoImplicit false

namespace MokyaLora.IpcRing
open Lib.Schedule Lib.Counter

def Holds (slot : IpcRingSlot) (m : Message) : Prop :=
  slot.copyOut ipcMsgPayloadMax = m.received

/-- What a task inside `ipc_ring_push` knows, from the numbers `u` of published
and `v` of released messages and the number `g` published at its head load. -/
def PcInv (c : SlotCount) (u v : ℕ) (slots : ℕ → IpcRingSlot) (g : ℕ) : PushPc → Prop
  | .idle => True
  | .called _ => True
  | .headLoaded m head => m.payload.length ≤ ipcMsgPayloadMax ∧ head = UInt32.ofNat g ∧ g ≤ u
  | .tailLoaded m head tail => m.payload.length ≤ ipcMsgPayloadMax ∧ head = UInt32.ofNat g ∧
      g ≤ u ∧ ∃ k ≤ v, tail = UInt32.ofNat k ∧ g ≤ k+c.n
  | .written m head => head = UInt32.ofNat g ∧ g = u ∧ u < v+c.n ∧ Holds (slots (u % c.n)) m

def PopInv (pushed : List Message) (v : ℕ) : PopPc → Prop
  | .idle => True
  | .tailLoaded tail => tail = UInt32.ofNat v
  | .headLoaded tail head => tail = UInt32.ofNat v ∧
      ∃ k, v ≤ k ∧ k ≤ pushed.length ∧ head = UInt32.ofNat k
  | .copied tail got => tail = UInt32.ofNat v ∧
      ∃ h : v < pushed.length, got = pushed[v].received

def PushPc.Writing : PushPc → Prop
  | .written _ _ => True
  | _ => False

variable {P : Type} [DecidableEq P]

structure Inv (c : SlotCount) (s : System P) : Prop where
  head : s.ring.ctrl.head = UInt32.ofNat s.pushed.length
  tail : s.ring.ctrl.tail = UInt32.ofNat s.popped.length
  below : s.popped.length ≤ s.pushed.length
  room : s.pushed.length ≤ s.popped.length+c.n
  taken : s.popped = (s.pushed.take s.popped.length).map Message.received
  slots : ∀ k (h : k < s.pushed.length), s.popped.length ≤ k →
    Holds (s.ring.slots (k % c.n)) s.pushed[k]
  consumer : PopInv s.pushed s.popped.length s.consumer
  producer : ∀ p, PcInv c s.pushed.length s.popped.length s.ring.slots (s.seen p) (s.producer p)
  alone : ∀ p q, (s.producer p).Writing → (s.producer q).Writing → p = q

/-- A slot write that is neither stale nor concurrent with an unpublished one:
no message was published since the head was loaded, and no other task stands
between its slot write and its head store. -/
def Orderly (c : SlotCount) (s : System P) : Act P → Prop
  | .push p => match s.producer p with
    | .tailLoaded _ head tail => (head-tail).toNat < c.n →
        s.seen p = s.pushed.length ∧ ∀ q, ¬ (s.producer q).Writing
    | _ => True
  | _ => True

theorem holds_copied (old : Payload) (m : Message)
    (hm : m.payload.length ≤ ipcMsgPayloadMax) : Holds ⟨m.header, memcpy old m.payload⟩ m := by
  have hl : (m.header.payloadLen.toNat) = m.payload.length := by
    simp [Message.header]
    have := m.fits
    omega
  simp only [Holds, IpcRingSlot.copyOut, Message.received, hl, Prod.mk.injEq, true_and]
  rw [Nat.min_eq_left hm]
  unfold ipcMsgPayloadMax at hm
  apply List.ext_getElem
  · simp; omega
  · intro i h1 h2
    simp [memcpy, h2]

theorem PcInv.released {c : SlotCount} {u v w g : ℕ} {slots : ℕ → IpcRingSlot} {pc : PushPc}
    (h : PcInv c u v slots g pc) (hv : v ≤ w) : PcInv c u w slots g pc := by
  cases pc with
  | idle => trivial
  | called m => trivial
  | headLoaded m head => exact h
  | tailLoaded m head tail =>
    obtain ⟨hm, hh, hg, k, hk, ht⟩ := h
    exact ⟨hm, hh, hg, k, le_trans hk hv, ht⟩
  | written m head => exact ⟨h.1, h.2.1, by have := h.2.2.1; omega, h.2.2.2⟩

theorem PcInv.published {c : SlotCount} {u w v g : ℕ} {slots slots' : ℕ → IpcRingSlot}
    {pc : PushPc} (h : PcInv c u v slots g pc) (hu : u ≤ w) (hpc : ¬ pc.Writing) :
    PcInv c w v slots' g pc := by
  cases pc with
  | idle => trivial
  | called m => trivial
  | headLoaded m head => exact ⟨h.1, h.2.1, le_trans h.2.2 hu⟩
  | tailLoaded m head tail => exact ⟨h.1, h.2.1, le_trans h.2.2.1 hu, h.2.2.2⟩
  | written m head => exact absurd trivial hpc

theorem PopInv.published {pushed : List Message} {v : ℕ} {pc : PopPc}
    (h : PopInv pushed v pc) (m : Message) : PopInv (pushed++[m]) v pc := by
  cases pc with
  | idle => trivial
  | tailLoaded tail => exact h
  | headLoaded tail head =>
    obtain ⟨ht, k, hv, hk, hh⟩ := h
    exact ⟨ht, k, hv, by simp; omega, hh⟩
  | copied tail got =>
    obtain ⟨ht, hv, hg⟩ := h
    exact ⟨ht, by simp; omega, by rw [hg, List.getElem_append_left hv]⟩

omit [DecidableEq P] in
theorem inv_init (c : SlotCount) : Inv c (System.init : System P) where
  head := rfl
  tail := rfl
  below := le_refl _
  room := by simp [System.init]
  taken := rfl
  slots := by intro k h; simp [System.init] at h
  consumer := trivial
  producer := fun _ => trivial
  alone := by intro p q h; exact h.elim

theorem known_update {c : SlotCount} {u v : ℕ} {slots : ℕ → IpcRingSlot} {producer : P → PushPc}
    {seen : P → ℕ} (p : P) {pc : PushPc} {g : ℕ} (hp : PcInv c u v slots g pc)
    (hothers : ∀ q, q ≠ p → PcInv c u v slots (seen q) (producer q)) (q : P) :
    PcInv c u v slots (Function.update seen p g q) (Function.update producer p pc q) := by
  by_cases hq : q = p
  · subst q
    simpa only [Function.update_self] using hp
  · simpa only [Function.update_of_ne hq] using hothers q hq

theorem alone_update {producer : P → PushPc} (p : P) {pc : PushPc} (hpc : ¬ pc.Writing)
    (h : ∀ q q', (producer q).Writing → (producer q').Writing → q = q') (q q' : P)
    (hq : (Function.update producer p pc q).Writing)
    (hq' : (Function.update producer p pc q').Writing) : q = q' := by
  have hne : ∀ r, (Function.update producer p pc r).Writing → r ≠ p := by
    rintro r hr rfl
    rw [Function.update_self] at hr
    exact hpc hr
  rw [Function.update_of_ne (hne q hq)] at hq
  rw [Function.update_of_ne (hne q' hq')] at hq'
  exact h q q' hq hq'

theorem inv_quiet (c : SlotCount) (s : System P) (p : P) (r : Ring) (pc : PushPc) (g : ℕ)
    (hi : Inv c s) (hhead : r.ctrl.head = s.ring.ctrl.head) (htail : r.ctrl.tail = s.ring.ctrl.tail)
    (hslots : r.slots = s.ring.slots) (hpc : ¬ pc.Writing)
    (hg : PcInv c s.pushed.length s.popped.length s.ring.slots g pc) :
    Inv c { s with
      ring := r
      producer := Function.update s.producer p pc
      seen := Function.update s.seen p g } where
  head := hhead.trans hi.head
  tail := htail.trans hi.tail
  below := hi.below
  room := hi.room
  taken := hi.taken
  slots := by simpa only [hslots] using hi.slots
  consumer := hi.consumer
  producer := by
    simp only [hslots]
    exact known_update p hg (fun q _ => hi.producer q)
  alone := alone_update p hpc hi.alone

theorem inv_write (c : SlotCount) (s : System P) (p : P) (m : Message) (head tail : UInt32)
    (hi : Inv c s) (hp : s.producer p = .tailLoaded m head tail)
    (hfree : (head-tail).toNat < c.n) (hseen : s.seen p = s.pushed.length)
    (hothers : ∀ q, ¬ (s.producer q).Writing) :
    Inv c { s with
      ring := s.ring.writeSlot (head.toNat % c.n) m
      producer := Function.update s.producer p (.written m head)
      seen := Function.update s.seen p (s.seen p) } := by
  have hk := hi.producer p
  rw [hp] at hk
  obtain ⟨hm, hh, -, k, hkv, ht, hgk⟩ := hk
  have hn := c.lt
  have hb := hi.below
  have hroom : s.pushed.length < s.popped.length+c.n := by
    have hd := toNat_sub_ofNat (s.seen p) k (by omega) (by omega)
    rw [← hh, ← ht] at hd
    omega
  have hidx : head.toNat % c.n = s.pushed.length % c.n := by
    rw [hh, toNat_ofNat_mod _ _ c.dvd, hseen]
  exact {
    head := hi.head
    tail := hi.tail
    below := hi.below
    room := hi.room
    taken := hi.taken
    slots := by
      intro j hj hv
      have hlt : j < s.pushed.length := hj
      have hle : s.popped.length ≤ j := hv
      have hne := mod_ne_of_window s.pushed.length j c.n hlt (by omega)
      simpa only [Ring.writeSlot, hidx, if_neg (Ne.symm hne)] using hi.slots j hj hv
    consumer := hi.consumer
    producer := by
      apply known_update p
      · simp only [PcInv, Ring.writeSlot, hidx, if_true]
        exact ⟨hh, hseen, hroom, holds_copied _ m hm⟩
      · exact fun q _ => (hi.producer q).published (le_refl _) (hothers q)
    alone := by
      intro q q' h h'
      by_cases hq : q = p
      · by_cases hq' : q' = p
        · rw [hq, hq']
        · simp only [Function.update_of_ne hq'] at h'
          exact absurd h' (hothers q')
      · simp only [Function.update_of_ne hq] at h
        exact absurd h (hothers q) }

theorem inv_publish (c : SlotCount) (s : System P) (p : P) (m : Message) (head : UInt32)
    (hi : Inv c s) (hp : s.producer p = .written m head) :
    Inv c { s with
      ring := s.ring.storeHead (head+1)
      producer := Function.update s.producer p .idle
      pushed := s.pushed++[m]
      seen := Function.update s.seen p (s.seen p) } := by
  have hk := hi.producer p
  rw [hp] at hk
  obtain ⟨hh, hg, hroom, hslot⟩ := hk
  have hothers : ∀ q, q ≠ p → ¬ (s.producer q).Writing := by
    intro q hq hw
    exact hq (hi.alone q p hw (by rw [hp]; trivial))
  exact {
    head := by
      simp only [Ring.storeHead, hh, hg, List.length_append, List.length_singleton]
      exact ofNat_succ _
    tail := hi.tail
    below := by have := hi.below; simp; omega
    room := by simp; omega
    taken := by
      have hb := hi.below
      rw [List.take_append_of_le_length hb]
      exact hi.taken
    slots := by
      intro j hj hv
      by_cases hlast : j < s.pushed.length
      · simpa only [List.getElem_append_left hlast, Ring.storeHead] using hi.slots j hlast hv
      · have hj' : j = s.pushed.length := by simp at hj; omega
        subst hj'
        simpa [Ring.storeHead] using hslot
    consumer := hi.consumer.published m
    producer := known_update p trivial
      (fun q hq => (hi.producer q).published (by simp) (hothers q hq))
    alone := alone_update p id hi.alone }

theorem inv_push (c : SlotCount) (s : System P) (p : P) (hi : Inv c s)
    (ho : Orderly c s (.push p)) :
    Inv c (s.afterPush p (pushStep c s.ring (s.producer p))) := by
  have hk := hi.producer p
  simp only [Orderly] at ho
  cases hp : s.producer p with
  | idle =>
    simp only [pushStep, System.afterPush, System.lookedAt, hp, reduceCtorEq, if_false]
    exact inv_quiet c s p s.ring .idle (s.seen p) hi rfl rfl rfl id trivial
  | called m =>
    by_cases hm : ipcMsgPayloadMax < m.payload.length
    · simp only [pushStep, System.afterPush, System.lookedAt, hp, if_pos hm, Option.some.injEq,
        Bool.false_eq_true, if_false]
      exact inv_quiet c s p s.ring.countOverflow .idle _ hi rfl rfl rfl id trivial
    · simp only [pushStep, System.afterPush, System.lookedAt, hp, if_neg hm, reduceCtorEq,
        if_false]
      exact inv_quiet c s p s.ring (.headLoaded m s.ring.ctrl.head) _ hi rfl rfl rfl id
        ⟨by omega, hi.head, le_refl _⟩
  | headLoaded m head =>
    rw [hp] at hk
    have hroom := hi.room
    simp only [pushStep, System.afterPush, System.lookedAt, hp, reduceCtorEq, if_false]
    exact inv_quiet c s p s.ring (.tailLoaded m head s.ring.ctrl.tail) _ hi rfl rfl rfl id
      ⟨hk.1, hk.2.1, hk.2.2, s.popped.length, le_refl _, hi.tail, by have := hk.2.2; omega⟩
  | tailLoaded m head tail =>
    by_cases hfull : c.n ≤ (head-tail).toNat
    · simp only [pushStep, System.afterPush, System.lookedAt, hp, if_pos hfull, Option.some.injEq,
        Bool.false_eq_true, if_false]
      exact inv_quiet c s p s.ring.countOverflow .idle _ hi rfl rfl rfl id trivial
    · rw [hp] at ho
      obtain ⟨hseen, hothers⟩ := ho (by omega)
      simp only [pushStep, System.afterPush, System.lookedAt, hp, if_neg hfull, reduceCtorEq,
        if_false]
      exact inv_write c s p m head tail hi hp (by omega) hseen hothers
  | written m head =>
    simp only [pushStep, System.afterPush, System.lookedAt, System.publishedBy, hp, if_true]
    exact inv_publish c s p m head hi hp

omit [DecidableEq P] in
theorem inv_release (c : SlotCount) (s : System P) (tail : UInt32) (hi : Inv c s)
    (ht : tail = UInt32.ofNat s.popped.length) (hlt : s.popped.length < s.pushed.length) :
    Inv c { s with
      ring := s.ring.storeTail (tail+1)
      consumer := .idle
      popped := s.popped++[s.pushed[s.popped.length].received] } where
  head := hi.head
  tail := by
    simp only [Ring.storeTail, ht, List.length_append, List.length_singleton]
    exact ofNat_succ _
  below := by simp; omega
  room := by
    have hroom := hi.room
    simp
    omega
  taken := by
    have htake := hi.taken
    simp only [List.length_append, List.length_singleton]
    rw [List.take_succ_eq_append_getElem hlt, List.map_append, ← htake]
    rfl
  slots := by
    intro j hj hv
    simp at hv
    exact hi.slots j hj (by omega)
  consumer := trivial
  producer := fun q => (hi.producer q).released (by simp)
  alone := hi.alone

omit [DecidableEq P] in
theorem inv_pop (c : SlotCount) (s : System P) (hi : Inv c s) :
    Inv c (s.afterPop (popStep c s.ring s.consumer)) := by
  have hk := hi.consumer
  have hb := hi.below
  cases hp : s.consumer with
  | idle =>
    simp only [popStep, System.afterPop, Option.getD_none, Option.toList_none, List.append_nil]
    exact { hi with consumer := hi.tail }
  | tailLoaded tail =>
    rw [hp] at hk
    simp only [popStep, System.afterPop, Option.getD_none, Option.toList_none, List.append_nil]
    exact { hi with consumer := ⟨hk, s.pushed.length, hb, le_refl _, hi.head⟩ }
  | headLoaded tail head =>
    rw [hp] at hk
    obtain ⟨ht, k, hv, hk, hh⟩ := hk
    by_cases he : head = tail
    · simp only [popStep, System.afterPop, if_pos he, Option.getD_some, Option.toList_none,
        List.append_nil]
      exact { hi with consumer := trivial }
    · simp only [popStep, System.afterPop, if_neg he, Option.getD_none, Option.toList_none,
        List.append_nil]
      have hne : k ≠ s.popped.length := by
        rintro rfl
        exact he (hh.trans ht.symm)
      have hlt : s.popped.length < s.pushed.length := by omega
      refine { hi with consumer := ⟨ht, hlt, ?_⟩ }
      rw [ht, toNat_ofNat_mod _ _ c.dvd]
      exact hi.slots _ hlt (le_refl _)
  | copied tail got =>
    rw [hp] at hk
    obtain ⟨ht, hlt, rfl⟩ := hk
    simp only [popStep, System.afterPop, Option.getD_some, Option.toList_some]
    exact inv_release c s tail hi ht hlt

theorem inv_step (c : SlotCount) (s t : System P) (a : Act P) (hi : Inv c s)
    (ho : Orderly c s a) (hs : step c s a = some t) : Inv c t := by
  cases a with
  | call p m =>
    simp only [step, Option.ite_none_right_eq_some, Option.some.injEq] at hs
    obtain ⟨-, rfl⟩ := hs
    have hq := inv_quiet c s p s.ring (.called m) (s.seen p) hi rfl rfl rfl id trivial
    rwa [Function.update_eq_self] at hq
  | push p =>
    simp only [step, Option.ite_none_left_eq_some, Option.some.injEq] at hs
    obtain ⟨-, rfl⟩ := hs
    exact inv_push c s p hi ho
  | pop =>
    simp only [step, Option.some.injEq] at hs
    exact hs ▸ inv_pop c s hi

theorem inv_exec (c : SlotCount) (acts : List (Act P)) (t : System P)
    (ho : Along (step c) (Orderly c) System.init acts)
    (he : exec (step c) System.init acts = some t) : Inv c t :=
  exec_invariant (step c) (Orderly c) (Inv c)
    (fun s a t hi ha hs => inv_step c s t a hi ha hs) acts _ t (inv_init c) ho he

end MokyaLora.IpcRing
