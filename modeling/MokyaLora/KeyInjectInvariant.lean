import MokyaLora.KeyInject
import MokyaLora.Lib.Window

/-!
# What holds between two accesses to the injection ring

The two indexes are the numbers of events published and taken, the slots between them
show the events that are on their way, and a batch is written to free slots only. The
host subtracts the indexes as unbounded integers, so this holds until they wrap.
-/

set_option autoImplicit false

namespace MokyaLora.KeyInject
open Lib.Schedule Lib.Counter Lib.Window MokyaLora.Keypad

theorem memory_write8_snoc (addr : ℕ) (data : List UInt8) (byte : UInt8) :
    memoryWrite8 addr (data++[byte]) = memoryWrite8 addr data++[(addr+data.length, byte)] := by
  induction data generalizing addr with
  | nil => rfl
  | cons b data ih =>
    rw [List.cons_append, memoryWrite8, ih, memoryWrite8, List.cons_append, List.length_cons,
      show addr+1+data.length = addr+(data.length+1) by omega]

theorem runs_flat (runStart : ℕ) (runData : List UInt8) (ops : List (ℕ × UInt8)) :
    (runs runStart runData ops).flatMap (fun run => memoryWrite8 run.1 run.2) =
      memoryWrite8 runStart runData++ops := by
  induction ops generalizing runStart runData with
  | nil => simp [runs]
  | cons op ops ih =>
    obtain ⟨addr, byte⟩ := op
    by_cases h : addr = runStart+runData.length
    · rw [runs, if_pos h, ih, memory_write8_snoc, h, List.append_assoc]
      rfl
    · rw [runs, if_neg h, List.flatMap_cons, ih]
      rfl

theorem write_u8_many_perm (ops : List (ℕ × UInt8)) :
    ((writeU8Many ops).flatMap (fun run => memoryWrite8 run.1 run.2)).Perm ops := by
  have hperm := List.perm_insertionSort TupleLe ops
  unfold writeU8Many
  cases hs : ops.insertionSort TupleLe with
  | nil =>
    rw [hs] at hperm
    exact hperm
  | cons op rest =>
    rw [hs] at hperm
    show List.Perm ((runs op.1 [op.2] rest).flatMap _) ops
    rw [runs_flat]
    exact hperm

theorem mem_writes (producer : ℕ) (batch : List Event) (w : ℕ × UInt8) :
    w ∈ writes producer batch ↔ ∃ k, ∃ h : k < batch.length,
      w = ((producer+k) % 32*2, batch[k].ev) ∨ w = ((producer+k) % 32*2+1, batch[k].flags) := by
  induction batch generalizing producer with
  | nil => simp [writes]
  | cons e batch ih =>
    simp only [writes, keyInjectRingEvents, keyInjectEventSize, List.mem_cons, ih]
    constructor
    · rintro (rfl | rfl | ⟨k, hk, h⟩)
      · exact ⟨0, by simp, .inl rfl⟩
      · exact ⟨0, by simp, .inr rfl⟩
      · refine ⟨k+1, by simpa using hk, ?_⟩
        rw [show producer+(k+1) = producer+1+k by omega]
        exact h
    · rintro ⟨k, hk, h⟩
      cases k with
      | zero => exact h.elim .inl (fun h => .inr (.inl h))
      | succ k =>
        rw [show producer+(k+1) = producer+1+k by omega] at h
        exact .inr (.inr ⟨k, by simpa using hk, h⟩)

theorem writes_slot (producer : ℕ) (batch : List Event) (w : ℕ × UInt8)
    (h : w ∈ writes producer batch) : ∃ k < batch.length, w.1/2 = (producer+k) % 32 := by
  obtain ⟨k, hk, rfl | rfl⟩ := (mem_writes producer batch w).mp h
  · exact ⟨k, hk, by simp⟩
  · exact ⟨k, hk, by show ((producer+k) % 32*2+1)/2 = _; omega⟩

theorem writes_functional (producer : ℕ) (batch : List Event) (hlen : batch.length ≤ 32)
    (addr : ℕ) (a b : UInt8) (ha : (addr, a) ∈ writes producer batch)
    (hb : (addr, b) ∈ writes producer batch) : a = b := by
  obtain ⟨i, hi, hi'⟩ := (mem_writes producer batch _).mp ha
  obtain ⟨j, hj, hj'⟩ := (mem_writes producer batch _).mp hb
  simp only [Prod.mk.injEq] at hi' hj'
  have hsame : i = j := by omega
  subst hsame
  rcases hi' with ⟨hi, rfl⟩ | ⟨hi, rfl⟩ <;> rcases hj' with ⟨hj, rfl⟩ | ⟨hj, rfl⟩ <;>
    first | rfl | omega

def slotEvent (events : ℕ → UInt8) (i : ℕ) : Event := ⟨events (i*2), events (i*2+1)⟩

theorem slot_event_store (events : ℕ → UInt8) (addr : ℕ) (byte : UInt8) (i : ℕ)
    (h : addr/2 ≠ i) : slotEvent (Function.update events addr byte) i = slotEvent events i := by
  have hkey : i*2 ≠ addr := by omega
  have hflags : i*2+1 ≠ addr := by omega
  simp [slotEvent, Function.update_of_ne hkey, Function.update_of_ne hflags]

theorem slot_event_written (events : ℕ → UInt8) (producer : ℕ) (batch : List Event)
    (h : ∀ w ∈ writes producer batch, events w.1 = w.2) (k : ℕ) (hk : k < batch.length) :
    slotEvent events ((producer+k) % 32) = batch[k] := by
  have hkey := h _ ((mem_writes producer batch _).mpr ⟨k, hk, .inl rfl⟩)
  have hflags := h _ ((mem_writes producer batch _).mpr ⟨k, hk, .inr rfl⟩)
  simp only at hkey hflags
  rw [slotEvent, hkey, hflags]

/-- The events whose slots the task has released. -/
def System.released (s : System) : ℕ :=
  match s.task with
  | .forwarded _ _ => s.taken.length-1
  | .counted _ => s.taken.length-1
  | _ => s.taken.length

def System.shown (s : System) : List (Event × Bool) :=
  match s.task with
  | .forwarded _ _ => s.taken.dropLast
  | _ => s.taken

def Ahead (queued : List Event) (v : ℕ) (prod : UInt32) : Prop :=
  ∃ n, prod = UInt32.ofNat n ∧ v < n ∧ n ≤ queued.length

theorem released_le (s : System) : s.released ≤ s.taken.length := by
  unfold System.released
  split <;> omega

/-- What the task knows, from the number `v` of released events. -/
def TaskInv (queued : List Event) (taken : List (Event × Bool)) (v : ℕ) : TaskPc → Prop
  | .boot _ => False
  | .top => True
  | .selected => True
  | .loop prod => ∃ n, prod = UInt32.ofNat n ∧ v ≤ n ∧ n ≤ queued.length
  | .draining prod => Ahead queued v prod
  | .slot prod idx => Ahead queued v prod ∧ idx = v % 32
  | .key prod idx ev => Ahead queued v prod ∧ idx = v % 32 ∧
      ∃ h : v < queued.length, ev = queued[v].ev
  | .event prod e => Ahead queued v prod ∧
      ∃ h : v < queued.length, e = queued[v]
  | .forwarded prod ok => Ahead queued v prod ∧
      ∃ e, taken = taken.dropLast++[(e, ok)]
  | .counted prod => Ahead queued v prod ∧ taken ≠ []

def HostInv (u v : ℕ) (events : ℕ → UInt8) : HostPc → Prop
  | .producerRead _ producer => producer = u
  | .consumerRead _ producer consumer => producer = u ∧ consumer ≤ v
  | .writing ops batch _ producer => producer = u+batch.length ∧ u+batch.length+2 ≤ v+32 ∧
      ∃ done, (done++ops).Perm (writes u batch) ∧ ∀ w ∈ done, events w.1 = w.2
  | _ => True

theorem Ahead.published {queued : List Event} {v : ℕ} {prod : UInt32} (h : Ahead queued v prod)
    (batch : List Event) : Ahead (queued++batch) v prod := by
  obtain ⟨n, hprod, hv, hn⟩ := h
  exact ⟨n, hprod, hv, by rw [List.length_append]; omega⟩

theorem TaskInv.published {queued : List Event} {taken : List (Event × Bool)} {v : ℕ}
    {pc : TaskPc} (h : TaskInv queued taken v pc) (batch : List Event) :
    TaskInv (queued++batch) taken v pc := by
  have hget : ∀ hlt : v < queued.length, ∃ hlt' : v < (queued++batch).length,
      (queued++batch)[v] = queued[v] :=
    fun hlt => ⟨by rw [List.length_append]; omega, List.getElem_append_left hlt⟩
  cases pc with
  | boot k => exact h
  | top => trivial
  | selected => trivial
  | loop prod =>
    obtain ⟨n, hprod, hv, hn⟩ := h
    exact ⟨n, hprod, hv, by rw [List.length_append]; omega⟩
  | draining prod => exact Ahead.published h batch
  | slot prod idx => exact ⟨h.1.published batch, h.2⟩
  | key prod idx ev =>
    obtain ⟨hprod, hidx, hlt, hev⟩ := h
    obtain ⟨hlt', hget⟩ := hget hlt
    exact ⟨hprod.published batch, hidx, hlt', by rw [hget]; exact hev⟩
  | event prod e =>
    obtain ⟨hprod, hlt, he⟩ := h
    obtain ⟨hlt', hget⟩ := hget hlt
    exact ⟨hprod.published batch, hlt', by rw [hget]; exact he⟩
  | forwarded prod ok => exact ⟨h.1.published batch, h.2⟩
  | counted prod => exact ⟨h.1.published batch, h.2⟩

structure Running (s : System) : Prop where
  producer : s.buf.producerIdx = UInt32.ofNat s.queued.length
  consumer : s.buf.consumerIdx = UInt32.ofNat s.released
  taken : s.taken.map Prod.fst = s.queued.take s.taken.length
  below : s.taken.length ≤ s.queued.length
  room : s.queued.length+2 ≤ s.released+32
  slots : Holds 32 (slotEvent s.buf.events) s.queued s.released
  task : TaskInv s.queued s.taken s.released s.task
  host : HostInv s.queued.length s.released s.buf.events s.host
  pushed : s.buf.pushed = UInt32.ofNat (s.shown.countP (fun x => x.2))
  rejected : s.buf.rejected = UInt32.ofNat (s.shown.countP (fun x => !x.2))

structure Booting (k : ℕ) (s : System) : Prop where
  host : s.host = .offline
  queued : s.queued = []
  taken : s.taken = []
  magic : s.buf.magic ≠ keyInjectMagic
  producer : 0 < k → s.buf.producerIdx = 0
  consumer : 1 < k → s.buf.consumerIdx = 0
  pushed : 2 < k → s.buf.pushed = 0
  rejected : 3 < k → s.buf.rejected = 0

structure Inv (s : System) : Prop where
  booting : ∀ k, s.task = .boot k → Booting k s
  running : (∀ k, s.task ≠ .boot k) → s.queued.length < 4294967296 → Running s

theorem running_task (s : System) (pc : TaskPc) (hi : Running s)
    (hreleased : { s with task := pc }.released = s.released)
    (hshown : { s with task := pc }.shown = s.shown)
    (htask : TaskInv s.queued s.taken s.released pc) : Running { s with task := pc } where
  producer := hi.producer
  consumer := by rw [hreleased]; exact hi.consumer
  taken := hi.taken
  below := hi.below
  room := by rw [hreleased]; exact hi.room
  slots := by rw [hreleased]; exact hi.slots
  task := by rw [hreleased]; exact htask
  host := by rw [hreleased]; exact hi.host
  pushed := by rw [hshown]; exact hi.pushed
  rejected := by rw [hshown]; exact hi.rejected

theorem running_event (s : System) (prod : UInt32) (e : Event) (hi : Running s)
    (hp : s.task = .event prod e) : Running s.taskStep := by
  have hk := hi.task
  have hr : s.released = s.taken.length := by simp [System.released, hp]
  have hsh : s.shown = s.taken := by simp [System.shown, hp]
  rw [hp, hr] at hk
  obtain ⟨hprod, hlt, he⟩ := hk
  have hstep : s.taskStep = { s with
      keys := (forward s.keys e).1
      task := .forwarded prod (forward s.keys e).2
      taken := s.taken++[(e, (forward s.keys e).2)] } := by simp [System.taskStep, hp]
  have hr' : s.taskStep.released = s.released := by
    rw [hstep, hr]
    simp [System.released]
  have hsh' : s.taskStep.shown = s.shown := by
    rw [hstep, hsh]
    simp [System.shown]
  rw [hstep] at hr' hsh' ⊢
  exact {
    producer := hi.producer
    consumer := by rw [hr']; exact hi.consumer
    taken := by
      rw [List.map_append, hi.taken, List.length_append, List.length_singleton,
        List.take_succ_eq_append_getElem hlt, he]
      rfl
    below := by
      rw [List.length_append, List.length_singleton]
      exact hlt
    room := by rw [hr']; exact hi.room
    slots := by rw [hr']; exact hi.slots
    task := by rw [hr', hr]; exact ⟨hprod, e, by simp⟩
    host := by rw [hr']; exact hi.host
    pushed := by rw [hsh']; exact hi.pushed
    rejected := by rw [hsh']; exact hi.rejected }

theorem running_forwarded (s : System) (prod : UInt32) (ok : Bool) (hi : Running s)
    (hp : s.task = .forwarded prod ok) : Running s.taskStep := by
  have hk := hi.task
  have hpushed := hi.pushed
  have hrejected := hi.rejected
  have hr : s.released = s.taken.length-1 := by simp [System.released, hp]
  have hsh : s.shown = s.taken.dropLast := by simp [System.shown, hp]
  rw [hp] at hk
  rw [hsh] at hpushed hrejected
  obtain ⟨hprod, e, he⟩ := hk
  have hstep : s.taskStep = { s with buf := s.buf.count ok, task := .counted prod } := by
    simp [System.taskStep, hp]
  have hr' : s.taskStep.released = s.released := by rw [hstep, hr]; rfl
  have hbuf : (s.buf.count ok).producerIdx = s.buf.producerIdx ∧
      (s.buf.count ok).consumerIdx = s.buf.consumerIdx ∧
      (s.buf.count ok).events = s.buf.events := by
    unfold KeyInjectBuf.count
    split <;> exact ⟨rfl, rfl, rfl⟩
  rw [hstep] at hr' ⊢
  exact {
    producer := hbuf.1.trans hi.producer
    consumer := by rw [hr']; exact hbuf.2.1.trans hi.consumer
    taken := hi.taken
    below := hi.below
    room := by rw [hr']; exact hi.room
    slots := by
      rw [hr']
      show Holds 32 (slotEvent (s.buf.count ok).events) _ _
      rw [hbuf.2.2]
      exact hi.slots
    task := by rw [hr']; exact ⟨hprod, by rw [he]; simp⟩
    host := by
      rw [hr']
      show HostInv _ _ (s.buf.count ok).events _
      rw [hbuf.2.2]
      exact hi.host
    pushed := by
      show (s.buf.count ok).pushed = UInt32.ofNat (s.taken.countP (fun x => x.2))
      rw [he, List.countP_append]
      cases ok <;> simp [KeyInjectBuf.count, hpushed]
    rejected := by
      show (s.buf.count ok).rejected = UInt32.ofNat (s.taken.countP (fun x => !x.2))
      rw [he, List.countP_append]
      cases ok <;> simp [KeyInjectBuf.count, hrejected] }

theorem running_counted (s : System) (prod : UInt32) (hi : Running s)
    (hp : s.task = .counted prod) : Running s.taskStep := by
  have hk := hi.task
  have hr : s.released = s.taken.length-1 := by simp [System.released, hp]
  have hsh : s.shown = s.taken := by simp [System.shown, hp]
  rw [hp] at hk
  obtain ⟨⟨n, hprod, hn, hle⟩, hne⟩ := hk
  have hpos := List.length_pos_of_ne_nil hne
  have hstep : s.taskStep = { s with
      buf := { s.buf with consumerIdx := s.buf.consumerIdx+1 }
      task := .loop prod } := by simp [System.taskStep, hp]
  have hr' : s.taskStep.released = s.released+1 := by
    rw [hstep, hr]
    show s.taken.length = _
    omega
  rw [hstep] at hr' ⊢
  exact {
    producer := hi.producer
    consumer := by
      rw [hr']
      show s.buf.consumerIdx+1 = _
      rw [hi.consumer, ofNat_succ]
    taken := hi.taken
    below := hi.below
    room := by
      rw [hr']
      have hroom := hi.room
      show s.queued.length+2 ≤ _
      omega
    slots := by rw [hr']; exact hi.slots.later (by omega)
    task := by rw [hr']; exact ⟨n, hprod, hn, hle⟩
    host := by
      rw [hr']
      have hhost := hi.host
      show HostInv s.queued.length (s.released+1) s.buf.events s.host
      cases hh : s.host with
      | consumerRead evs producer consumer =>
        rw [hh] at hhost
        exact ⟨hhost.1, by have := hhost.2; omega⟩
      | writing ops batch evs producer =>
        rw [hh] at hhost
        exact ⟨hhost.1, by have := hhost.2.1; omega, hhost.2.2⟩
      | producerRead evs producer =>
        rw [hh] at hhost
        exact hhost
      | _ => trivial
    pushed := by
      have hcount := hi.pushed
      rw [hsh] at hcount
      exact hcount
    rejected := by
      have hcount := hi.rejected
      rw [hsh] at hcount
      exact hcount }

theorem running_step (s : System) (hi : Running s) : Running s.taskStep := by
  have hk := hi.task
  have hbelow := hi.below
  cases hp : s.task with
  | boot k =>
    rw [hp] at hk
    exact hk.elim
  | top =>
    simp only [System.taskStep, hp]
    split
    · exact hi
    · exact running_task s .selected hi (by simp [System.released, hp]) (by simp [System.shown, hp])
        trivial
  | selected =>
    have hr : s.released = s.taken.length := by simp [System.released, hp]
    simp only [System.taskStep, hp]
    exact running_task s _ hi (by simp [System.released, hp]) (by simp [System.shown, hp])
      ⟨_, hi.producer, by omega, le_refl _⟩
  | loop prod =>
    rw [hp] at hk
    obtain ⟨n, rfl, hv, hn⟩ := hk
    simp only [System.taskStep, hp]
    split
    · rename_i hne
      refine running_task s _ hi (by simp [System.released, hp]) (by simp [System.shown, hp])
        ⟨n, rfl, ?_, hn⟩
      rw [hi.consumer] at hne
      have : n ≠ s.released := fun h => hne (by rw [h])
      omega
    · exact running_task s _ hi (by simp [System.released, hp]) (by simp [System.shown, hp]) trivial
  | draining prod =>
    rw [hp] at hk
    simp only [System.taskStep, hp]
    refine running_task s _ hi (by simp [System.released, hp]) (by simp [System.shown, hp])
      ⟨hk, ?_⟩
    rw [hi.consumer, keyInjectRingEvents, toNat_ofNat_mod _ _ (by decide)]
  | slot prod idx =>
    rw [hp] at hk
    obtain ⟨⟨n, hprod, hv, hn⟩, hidx⟩ := hk
    have hlt : s.released < s.queued.length := by omega
    simp only [System.taskStep, hp]
    refine running_task s _ hi (by simp [System.released, hp]) (by simp [System.shown, hp])
      ⟨⟨n, hprod, hv, hn⟩, hidx, hlt, ?_⟩
    rw [hidx]
    exact congrArg Event.ev (hi.slots s.released hlt (le_refl _))
  | key prod idx ev =>
    rw [hp] at hk
    obtain ⟨hprod, hidx, hlt, hev⟩ := hk
    simp only [System.taskStep, hp]
    refine running_task s _ hi (by simp [System.released, hp]) (by simp [System.shown, hp])
      ⟨hprod, hlt, ?_⟩
    have hflags := congrArg Event.flags (hi.slots s.released hlt (le_refl _))
    simp only [slotEvent] at hflags
    rw [hidx, hev, hflags]
  | event prod e => exact running_event s prod e hi hp
  | forwarded prod ok => exact running_forwarded s prod ok hi hp
  | counted prod => exact running_counted s prod hi hp

theorem running_host_pc (s : System) (pc : HostPc) (hi : Running s)
    (hhost : HostInv s.queued.length s.released s.buf.events pc) :
    Running { s with host := pc } where
  producer := hi.producer
  consumer := hi.consumer
  taken := hi.taken
  below := hi.below
  room := hi.room
  slots := hi.slots
  task := hi.task
  host := hhost
  pushed := hi.pushed
  rejected := hi.rejected

theorem take_count_room (evs : List Event) (u v c : ℕ) (hc : c ≤ v)
    (hfree : ¬ chunkMax ≤ (u : ℤ)-c) :
    u+(evs.take (takeCount evs u c)).length+2 ≤ v+32 := by
  rw [List.length_take]
  simp only [chunkMax, keyInjectRingEvents] at hfree
  simp only [takeCount, chunkMax, keyInjectRingEvents]
  omega

theorem running_batch (s : System) (evs : List Event) (producer consumer : ℕ) (hi : Running s)
    (hp : s.host = .consumerRead evs producer consumer)
    (hfree : ¬ chunkMax ≤ (producer : ℤ)-consumer) (t : System) (hs : s.hostStep = some t) :
    Running t := by
  have hk := hi.host
  have hroom := hi.room
  have hbelow := hi.below
  rw [hp] at hk
  obtain ⟨rfl, hc⟩ := hk
  simp only [System.hostStep, hp, if_neg hfree, Option.some.injEq] at hs
  have hbatch := take_count_room evs s.queued.length s.released consumer hc hfree
  have hlen : takeCount evs s.queued.length consumer ≤ evs.length := by
    simp only [takeCount]
    omega
  rw [← hs]
  refine running_host_pc s _ hi ⟨?_, hbatch, [], write_u8_many_perm _, ?_⟩
  · rw [List.length_take, Nat.min_eq_left hlen]
  · intro w hw
    cases hw

theorem running_store (s : System) (addr : ℕ) (byte : UInt8) (ops : List (ℕ × UInt8))
    (batch evs : List Event) (producer : ℕ) (hi : Running s)
    (hp : s.host = .writing ((addr, byte)::ops) batch evs producer) :
    Running { s with
      buf := { s.buf with events := Function.update s.buf.events addr byte }
      host := .writing ops batch evs producer } := by
  have hk := hi.host
  have hbelow := hi.below
  have hreleased := released_le s
  rw [hp] at hk
  obtain ⟨hprod, hroom, done, hperm, hdone⟩ := hk
  have hmem : (addr, byte) ∈ writes s.queued.length batch := hperm.subset (by simp)
  obtain ⟨k, hk, hslot⟩ := writes_slot _ _ _ hmem
  exact {
    producer := hi.producer
    consumer := hi.consumer
    taken := hi.taken
    below := hi.below
    room := hi.room
    slots := by
      refine hi.slots.frame (fun i hlo hlt => slot_event_store _ _ _ _ ?_)
      rw [hslot]
      exact cell_free i k s.queued.length hlo hlt (by
        show s.queued.length+k < s.released+32
        omega)
    task := hi.task
    host := by
      refine ⟨hprod, hroom, done++[(addr, byte)], by simpa using hperm, ?_⟩
      intro w hw
      rcases List.mem_append.mp hw with hw | hw
      · by_cases hsame : w.1 = addr
        · have hw' : (addr, w.2) ∈ writes s.queued.length batch := by
            rw [← hsame]
            exact hperm.subset (by simp [hw])
          show Function.update s.buf.events addr byte w.1 = w.2
          rw [hsame, Function.update_self]
          exact writes_functional _ batch (by omega) addr _ _ hmem hw'
        · show Function.update s.buf.events addr byte w.1 = w.2
          rw [Function.update_of_ne hsame]
          exact hdone w hw
      · rw [List.mem_singleton.mp hw]
        exact Function.update_self _ _ _
    pushed := hi.pushed
    rejected := hi.rejected }

theorem running_publish (s : System) (batch evs : List Event) (producer : ℕ) (hi : Running s)
    (hp : s.host = .writing [] batch evs producer) :
    Running { s with
      buf := { s.buf with producerIdx := UInt32.ofNat producer }
      host := .queue evs
      queued := s.queued++batch } := by
  have hk := hi.host
  have hbelow := hi.below
  rw [hp] at hk
  obtain ⟨rfl, hroom, done, hperm, hdone⟩ := hk
  rw [List.append_nil] at hperm
  have hwritten := slot_event_written s.buf.events s.queued.length batch
    (fun w hw => hdone w (hperm.symm.subset hw))
  exact {
    producer := by rw [List.length_append]
    consumer := hi.consumer
    taken := by rw [List.take_append_of_le_length hbelow]; exact hi.taken
    below := by
      rw [List.length_append]
      exact le_trans hbelow (Nat.le_add_right _ _)
    room := by
      rw [List.length_append]
      exact hroom
    slots := hi.slots.publish hwritten
    task := hi.task.published batch
    host := trivial
    pushed := hi.pushed
    rejected := hi.rejected }

theorem running_host (s t : System) (hi : Running s) (hfew : s.queued.length < 4294967296)
    (hs : s.hostStep = some t) : Running t := by
  have hk := hi.host
  have hbelow := hi.below
  have hreleased := released_le s
  have hcons : s.buf.consumerIdx.toNat = s.released := by
    rw [hi.consumer, UInt32.toNat_ofNat', Nat.mod_eq_of_lt (by omega)]
  cases hp : s.host with
  | offline =>
    simp only [System.hostStep, hp] at hs
    split at hs
    · rw [← Option.some.inj hs]
      exact running_host_pc s _ hi trivial
    · rw [← Option.some.inj hs]
      exact hi
  | idle => simp [System.hostStep, hp] at hs
  | queue evs =>
    cases evs with
    | nil =>
      simp only [System.hostStep, hp, Option.some.injEq] at hs
      rw [← hs]
      exact running_host_pc s _ hi trivial
    | cons e evs =>
      simp only [System.hostStep, hp, Option.some.injEq] at hs
      rw [← hs]
      refine running_host_pc s _ hi ?_
      show s.buf.producerIdx.toNat = s.queued.length
      rw [hi.producer, UInt32.toNat_ofNat', Nat.mod_eq_of_lt hfew]
  | producerRead evs producer =>
    rw [hp] at hk
    simp only [System.hostStep, hp, Option.some.injEq] at hs
    rw [← hs]
    exact running_host_pc s _ hi ⟨hk, le_of_eq hcons⟩
  | consumerRead evs producer consumer =>
    by_cases hfull : chunkMax ≤ (producer : ℤ)-consumer
    · rw [hp] at hk
      simp only [System.hostStep, hp, if_pos hfull, Option.some.injEq] at hs
      rw [← hs]
      exact running_host_pc s _ hi ⟨hk.1, le_of_eq hcons⟩
    · exact running_batch s evs producer consumer hi hp hfull t hs
  | writing ops batch evs producer =>
    cases ops with
    | nil =>
      simp only [System.hostStep, hp, Option.some.injEq] at hs
      rw [← hs]
      exact running_publish s batch evs producer hi hp
    | cons op ops =>
      simp only [System.hostStep, hp, Option.some.injEq] at hs
      rw [← hs]
      exact running_store s op.1 op.2 ops batch evs producer hi hp
  | queued =>
    simp only [System.hostStep, hp, Option.some.injEq] at hs
    rw [← hs]
    exact running_host_pc s _ hi trivial
  | waiting target =>
    simp only [System.hostStep, hp] at hs
    split at hs
    · rw [← Option.some.inj hs]
      exact running_host_pc s _ hi trivial
    · rw [← Option.some.inj hs]
      exact hi

theorem queued_grows (s t : System) (a : Act) (hs : step s a = some t) :
    s.queued.length ≤ t.queued.length := by
  cases a with
  | task =>
    simp only [step, Option.some.injEq] at hs
    rw [← hs]
    unfold System.taskStep
    repeat' split
    all_goals exact le_refl _
  | host =>
    simp only [step, System.hostStep] at hs
    repeat' split at hs
    all_goals cases hs
    all_goals first
      | exact le_refl _
      | simp
  | queueEvents evs =>
    simp only [step] at hs
    split at hs
    · rw [← Option.some.inj hs]
    · cases hs
  | timeout =>
    simp only [step] at hs
    split at hs
    · rw [← Option.some.inj hs]
    · cases hs
  | setKeyInjectMode mode =>
    simp only [step, Option.some.injEq] at hs
    rw [← hs]
  | others keys =>
    simp only [step, Option.some.injEq] at hs
    rw [← hs]

theorem inv_boot (buf : KeyInjectBuf) (keys : KeyEvents) (h : buf.magic ≠ keyInjectMagic) :
    Inv (System.boot buf keys) where
  booting := by
    intro k hk
    obtain rfl : 0 = k := TaskPc.boot.inj hk
    exact ⟨rfl, rfl, rfl, h, by omega, by omega, by omega, by omega⟩
  running := fun hk => absurd rfl (hk 0)

theorem boot_store (s : System) (k : ℕ) (hk : k < 4) (hi : Booting k s) :
    Booting (k+1) { s with buf := (s.buf.boot k).1, task := (s.buf.boot k).2 } := by
  obtain ⟨hhost, hqueued, htaken, hmagic, hproducer, hconsumer, hpushed, -⟩ := hi
  match k, hk with
  | 0, _ => exact ⟨hhost, hqueued, htaken, hmagic, fun _ => rfl, by omega, by omega, by omega⟩
  | 1, _ =>
    exact ⟨hhost, hqueued, htaken, hmagic, fun _ => hproducer (by omega), fun _ => rfl, by omega,
      by omega⟩
  | 2, _ =>
    exact ⟨hhost, hqueued, htaken, hmagic, fun _ => hproducer (by omega),
      fun _ => hconsumer (by omega), fun _ => rfl, by omega⟩
  | 3, _ =>
    exact ⟨hhost, hqueued, htaken, hmagic, fun _ => hproducer (by omega),
      fun _ => hconsumer (by omega), fun _ => hpushed (by omega), fun _ => rfl⟩

theorem boot_pc (b : KeyInjectBuf) (k : ℕ) :
    (b.boot k).2 = if k < 4 then .boot (k+1) else .top := by
  match k with
  | 0 | 1 | 2 | 3 => rfl
  | k+4 => rw [if_neg (by omega)]; rfl

theorem boot_magic (s : System) (k : ℕ) (hk : ¬ k < 4) (hi : Booting k s) :
    Running { s with buf := (s.buf.boot k).1, task := .top } := by
  obtain ⟨hhost, hqueued, htaken, -, hproducer, hconsumer, hpushed, hrejected⟩ := hi
  obtain ⟨k, rfl⟩ : ∃ j, k = j+4 := ⟨k-4, by omega⟩
  exact {
    producer := by rw [hqueued]; exact hproducer (by omega)
    consumer := by
      show s.buf.consumerIdx = UInt32.ofNat s.taken.length
      rw [htaken]
      exact hconsumer (by omega)
    taken := by rw [htaken, hqueued]; rfl
    below := by rw [htaken]; exact Nat.zero_le _
    room := by rw [hqueued]; show 0+2 ≤ s.taken.length+32; omega
    slots := by rw [hqueued]; exact holds_nil _ _ _
    task := trivial
    host := by rw [hhost]; trivial
    pushed := by
      show s.buf.pushed = UInt32.ofNat (s.taken.countP (fun x => x.2))
      rw [htaken]
      exact hpushed (by omega)
    rejected := by
      show s.buf.rejected = UInt32.ofNat (s.taken.countP (fun x => !x.2))
      rw [htaken]
      exact hrejected (by omega) }

theorem boot_step (s : System) (k : ℕ) (hi : Booting k s) (hp : s.task = .boot k) :
    Inv s.taskStep := by
  have hpc := boot_pc s.buf k
  have hstep : s.taskStep = { s with buf := (s.buf.boot k).1, task := (s.buf.boot k).2 } := by
    simp [System.taskStep, hp]
  rw [hstep]
  by_cases hk : k < 4
  · rw [if_pos hk] at hpc
    refine ⟨fun j hj => ?_, fun hne => absurd hpc (hne _)⟩
    obtain rfl : k+1 = j := TaskPc.boot.inj (hpc.symm.trans hj)
    exact boot_store s k hk hi
  · rw [if_neg hk] at hpc
    rw [hpc]
    exact ⟨fun j hj => TaskPc.noConfusion hj, fun _ _ => boot_magic s k hk hi⟩

theorem inv_task (s : System) (hi : Inv s) : Inv s.taskStep := by
  by_cases hb : ∃ k, s.task = .boot k
  · obtain ⟨k, hp⟩ := hb
    exact boot_step s k (hi.booting k hp) hp
  · have hb' : ∀ k, s.task ≠ .boot k := fun k hk => hb ⟨k, hk⟩
    have hq : s.taskStep.queued = s.queued := by
      unfold System.taskStep
      repeat' split
      all_goals rfl
    have hnext : ∀ k, s.taskStep.task ≠ .boot k := by
      intro k
      unfold System.taskStep
      repeat' split
      all_goals first
        | exact hb' k
        | exact absurd ‹_› (hb' _)
        | simp
    exact ⟨fun k hk => absurd hk (hnext k),
      fun _ hfew => running_step s (hi.running hb' (hq ▸ hfew))⟩

theorem inv_host (s t : System) (hi : Inv s) (hs : s.hostStep = some t)
    (hgrow : s.queued.length ≤ t.queued.length) : Inv t := by
  have htask : t.task = s.task := by
    simp only [System.hostStep] at hs
    repeat' split at hs
    all_goals cases hs
    all_goals rfl
  by_cases hb : ∃ k, s.task = .boot k
  · obtain ⟨k, hp⟩ := hb
    have hboot := hi.booting k hp
    have hsame : t = s := by
      simp only [System.hostStep, hboot.host, if_neg hboot.magic, Option.some.injEq] at hs
      exact hs.symm
    rw [hsame]
    exact hi
  · have hb' : ∀ k, s.task ≠ .boot k := fun k hk => hb ⟨k, hk⟩
    refine ⟨fun k hk => absurd (htask ▸ hk) (hb' k), fun _ hfew => ?_⟩
    exact running_host s t (hi.running hb' (by omega)) (by omega) hs

theorem inv_host_pc (s : System) (pc : HostPc) (hi : Inv s) (hoff : s.host ≠ .offline)
    (hpc : ∀ u v events, HostInv u v events pc) : Inv { s with host := pc } where
  booting := fun k hk => absurd (hi.booting k hk).host hoff
  running := fun hk hfew => running_host_pc s pc (hi.running hk hfew) (hpc _ _ _)

theorem inv_step (s t : System) (a : Act) (hi : Inv s) (hs : step s a = some t) : Inv t := by
  have hgrow := queued_grows s t a hs
  cases a with
  | task =>
    simp only [step, Option.some.injEq] at hs
    exact hs ▸ inv_task s hi
  | host => exact inv_host s t hi hs hgrow
  | queueEvents evs =>
    simp only [step] at hs
    split at hs
    · rename_i hidle
      rw [← Option.some.inj hs]
      exact inv_host_pc s _ hi (by rw [hidle]; exact HostPc.noConfusion) (fun _ _ _ => trivial)
    · cases hs
  | timeout =>
    simp only [step] at hs
    split at hs
    · rename_i target hwait
      rw [← Option.some.inj hs]
      exact inv_host_pc s _ hi (by rw [hwait]; exact HostPc.noConfusion) (fun _ _ _ => trivial)
    · cases hs
  | setKeyInjectMode mode =>
    simp only [step, Option.some.injEq] at hs
    rw [← hs]
    exact ⟨fun k hk => { hi.booting k hk with }, fun hk hfew => { hi.running hk hfew with }⟩
  | others keys =>
    simp only [step, Option.some.injEq] at hs
    rw [← hs]
    exact ⟨fun k hk => { hi.booting k hk with }, fun hk hfew => { hi.running hk hfew with }⟩

theorem inv_exec (buf : KeyInjectBuf) (keys : KeyEvents) (h : buf.magic ≠ keyInjectMagic)
    (acts : List Act) (t : System) (he : exec step (System.boot buf keys) acts = some t) : Inv t :=
  exec_invariant step (fun _ _ => True) Inv (fun s a u hi _ hs => inv_step s u a hi hs) acts _ t
    (inv_boot buf keys h) (along_of_forall step _ (fun _ _ => trivial) acts _) he

end MokyaLora.KeyInject
