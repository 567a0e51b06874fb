import MokyaLora.Lib.Schedule
import Mathlib.Data.List.GetD
import Mathlib.Logic.Function.Iterate

/-!
# Double buffers

Two slots and an index. The writer fills the slot of the index cell by cell, stores its
length and flips the index; a reader takes the index once and then reads the other slot, in
its own time. What it gets is one message, whole, if the writer does not begin the second
message after that one before the reader is done.
-/

set_option autoImplicit false

namespace Lib.DoubleBuffer
open Lib.Schedule

/-- Where the writer stands: before a message, after `done` cells of one, or with the flip
still to make. -/
inductive Pc (β : Type*) where
  | idle
  | copying (msg : List β) (done : ℕ)
  | flipping (msg : List β)

def Pc.message {β : Type*} : Pc β → List (List β)
  | .idle => []
  | .copying msg _ => [msg]
  | .flipping msg => [msg]

/-- The slots and the index are shared. The writer makes its messages from `locals`, and the
reader holds the slot it looked up, the length and the cells it took. `published`, `wakes` and
`start` (the number of messages that were published at the look) are logs. -/
structure State (β τ : Type*) where
  cells : Bool → ℕ → β
  len : Bool → ℕ
  writeIdx : Bool
  pc : Pc β
  locals : τ
  slot : Bool
  count : Option ℕ
  got : List β
  published : List (List β)
  wakes : ℕ
  start : ℕ

inductive Act where
  | wake
  | store
  | look
  | measure
  | read
  deriving DecidableEq

variable {β τ : Type*}

def init (cells : Bool → ℕ → β) (locals : τ) : State β τ :=
  ⟨cells, fun _ => 0, false, .idle, locals, true, none, [], [], 0, 0⟩

def State.stored (s : State β τ) (msg : List β) (done : ℕ) : State β τ :=
  if h : done < msg.length then
    { s with
      cells := Function.update s.cells s.writeIdx
        (Function.update (s.cells s.writeIdx) done msg[done])
      pc := .copying msg (done+1) }
  else { s with len := Function.update s.len s.writeIdx msg.length, pc := .flipping msg }

def State.flipped (s : State β τ) (msg : List β) : State β τ :=
  { s with writeIdx := !s.writeIdx, pc := .idle, published := s.published++[msg] }

/-- The writer wakes, stores or flips; the reader looks at the index, takes the length, or
takes a cell. A writer that wakes may have no message. -/
def step (next : τ → Option (List β) × τ) (s : State β τ) : Act → Option (State β τ)
  | .wake =>
    match s.pc with
    | .idle => some { s with
        pc := (next s.locals).1.elim .idle (fun msg => .copying msg 0)
        locals := (next s.locals).2
        wakes := s.wakes+1 }
    | _ => none
  | .store =>
    match s.pc with
    | .idle => none
    | .copying msg done => some (s.stored msg done)
    | .flipping msg => some (s.flipped msg)
  | .look => some { s with
      slot := !s.writeIdx, count := none, got := [], start := s.published.length }
  | .measure => some { s with count := some (s.len s.slot), got := [] }
  | .read =>
    match s.count with
    | none => none
    | some n =>
      if s.got.length < n then some { s with got := s.got++[s.cells s.slot s.got.length] }
      else none

def messages (next : τ → Option (List β) × τ) : ℕ → τ → List (List β)
  | 0, _ => []
  | n+1, x => (next x).1.toList++messages next n (next x).2

def State.begun (s : State β τ) : List (List β) := s.published++s.pc.message

def nth (ms : List (List β)) (n : ℕ) : List β := ([]::ms).getD n []

theorem nth_append (ms ns : List (List β)) (n : ℕ) (h : n ≤ ms.length) :
    nth (ms++ns) n = nth ms n := by
  rw [nth, nth, ← List.cons_append, List.getD_append]
  exact Nat.lt_succ_of_le h

theorem nth_last (ms : List (List β)) (msg : List β) : nth (ms++[msg]) (ms.length+1) = msg := by
  rw [nth, List.getD_cons_succ, List.getD_append_right _ _ _ _ (Nat.le_refl _), Nat.sub_self,
    List.getD_cons_zero]

structure Holds (s : State β τ) (b : Bool) (msg : List β) : Prop where
  len : s.len b = msg.length
  cell : ∀ i, ∀ h : i < msg.length, s.cells b i = msg[i]

/-- The newest message stands in the slot of the reader. While the writer is idle the one
before it stands in the other slot, else the message in hand as far as it was copied. -/
structure Slots (s : State β τ) : Prop where
  front : Holds s (!s.writeIdx) (nth s.published s.published.length)
  back : s.pc = .idle → Holds s s.writeIdx (nth s.published (s.published.length-1))
  copied : ∀ msg done, s.pc = .copying msg done →
    ∀ i, i < done → ∀ h : i < msg.length, s.cells s.writeIdx i = msg[i]
  whole : ∀ msg, s.pc = .flipping msg → Holds s s.writeIdx msg

/-- The reader's slot against the index: one flip later it is the writer's. -/
structure Looked (s : State β τ) : Prop where
  past : s.start ≤ s.published.length
  same : s.published.length = s.start → s.slot = !s.writeIdx
  other : s.published.length = s.start+1 → s.slot = s.writeIdx

/-- The writer has not begun the second message after the one that was looked up. -/
def InTime (s : State β τ) : Prop := s.begun.length ≤ s.start+1

def Intact (s : State β τ) : Prop :=
  (∀ n, s.count = some n → n = (nth s.published s.start).length) ∧
    s.got <+: nth s.published s.start

structure Inv (next : τ → Option (List β) × τ) (x : τ) (s : State β τ) : Prop where
  slots : Slots s
  looked : Looked s
  intact : InTime s → Intact s
  begun : s.begun = messages next s.wakes x
  locals : s.locals = (fun y => (next y).2)^[s.wakes] x

theorem messages_succ (next : τ → Option (List β) × τ) (n : ℕ) (x : τ) :
    messages next (n+1) x =
      messages next n x++(next ((fun y => (next y).2)^[n] x)).1.toList := by
  induction n generalizing x with
  | zero => simp [messages]
  | succ n ih => rw [messages, ih, messages, List.append_assoc, Function.iterate_succ_apply]

theorem inv_init (next : τ → Option (List β) × τ) (cells : Bool → ℕ → β) (x : τ) :
    Inv next x (init cells x) where
  slots := by
    have hempty : ∀ b, Holds (init cells x) b [] := fun b => ⟨rfl, fun i h => by simp at h⟩
    exact ⟨hempty _, fun _ => hempty _, (fun msg done h => by cases h), fun msg h => by cases h⟩
  looked := ⟨Nat.le_refl _, fun _ => rfl, fun h => by cases h⟩
  intact := fun _ => ⟨(fun n h => by cases h), List.nil_prefix⟩
  begun := rfl
  locals := rfl

theorem slots_wake {s : State β τ} (h : Slots s) (pc : Pc β) (locals : τ) (wakes : ℕ)
    (hidle : s.pc = .idle) (hpc : pc = .idle ∨ ∃ msg, pc = .copying msg 0) :
    Slots { s with pc := pc, locals := locals, wakes := wakes } where
  front := ⟨h.front.len, h.front.cell⟩
  back := fun _ => ⟨(h.back hidle).len, (h.back hidle).cell⟩
  copied := fun msg done heq i hi => by
    rcases hpc with hpc | ⟨msg', hpc⟩
    · cases hpc.symm.trans heq
    · cases hpc.symm.trans heq
      exact absurd hi (Nat.not_lt_zero i)
  whole := fun msg heq => by
    rcases hpc with hpc | ⟨msg', hpc⟩ <;> cases hpc.symm.trans heq

theorem stored_other (s : State β τ) (msg : List β) (done : ℕ) (m : List β)
    (h : Holds s (!s.writeIdx) m) : Holds (s.stored msg done) (!s.writeIdx) m := by
  have hne : (!s.writeIdx) ≠ s.writeIdx := by cases s.writeIdx <;> decide
  rw [State.stored]
  split
  · exact ⟨h.len, fun i hi => by
      rw [← h.cell i hi]
      exact congrFun (Function.update_of_ne hne ..) i⟩
  · exact ⟨(Function.update_of_ne hne ..).trans h.len, h.cell⟩

theorem slots_store {s : State β τ} (h : Slots s) (msg : List β) (done : ℕ)
    (hpc : s.pc = .copying msg done) : Slots (s.stored msg done) := by
  have hother := stored_other s msg done _ h.front
  have hcopied := h.copied msg done hpc
  by_cases hlt : done < msg.length
  · rw [State.stored, dif_pos hlt] at hother ⊢
    refine ⟨⟨hother.len, hother.cell⟩, (fun heq => by cases heq), ?_, fun m heq => by cases heq⟩
    rintro _ _ ⟨⟩ i hi hm
    show Function.update s.cells s.writeIdx _ s.writeIdx i = msg[i]
    rw [Function.update_self]
    rcases Nat.lt_succ_iff_lt_or_eq.mp hi with hi | rfl
    · rw [Function.update_of_ne (by omega)]
      exact hcopied i hi hm
    · exact Function.update_self ..
  · rw [State.stored, dif_neg hlt] at hother ⊢
    refine ⟨⟨hother.len, hother.cell⟩, (fun heq => by cases heq), (fun m d heq => by cases heq), ?_⟩
    rintro _ ⟨⟩
    exact ⟨Function.update_self .., fun i hi => hcopied i (by omega) hi⟩

theorem slots_flip {s : State β τ} (h : Slots s) (msg : List β) (hpc : s.pc = .flipping msg) :
    Slots (s.flipped msg) := by
  have hwhole := h.whole msg hpc
  have hfront := h.front
  refine ⟨?_, fun _ => ?_, (fun m d heq => by cases heq), fun m heq => by cases heq⟩
  · show Holds (s.flipped msg) (!(!s.writeIdx))
      (nth (s.published++[msg]) (s.published++[msg]).length)
    rw [Bool.not_not, List.length_append, List.length_singleton, nth_last]
    exact ⟨hwhole.len, hwhole.cell⟩
  · show Holds (s.flipped msg) (!s.writeIdx)
      (nth (s.published++[msg]) ((s.published++[msg]).length-1))
    rw [List.length_append, List.length_singleton, Nat.add_sub_cancel,
      nth_append _ _ _ (Nat.le_refl _)]
    exact ⟨hfront.len, hfront.cell⟩

theorem begun_length (s : State β τ) :
    s.begun.length = s.published.length+s.pc.message.length := List.length_append

theorem slot_holds {s : State β τ} (h : Slots s) (hl : Looked s) (ht : InTime s) :
    Holds s s.slot (nth s.published s.start) := by
  rw [InTime, begun_length] at ht
  rcases Nat.eq_or_lt_of_le hl.past with heq | hlt
  · rw [hl.same heq.symm, heq]
    exact h.front
  · have hone : s.published.length = s.start+1 := by omega
    have hidle : s.pc = .idle := by
      cases hpc : s.pc with
      | idle => rfl
      | copying msg done =>
        rw [hpc, Pc.message, List.length_singleton] at ht
        omega
      | flipping msg =>
        rw [hpc, Pc.message, List.length_singleton] at ht
        omega
    have hback := h.back hidle
    rw [hone, Nat.add_sub_cancel] at hback
    rw [hl.other hone]
    exact hback

theorem slots_reader {s : State β τ} (h : Slots s) (slot : Bool) (count : Option ℕ) (got : List β)
    (start : ℕ) : Slots { s with slot := slot, count := count, got := got, start := start } where
  front := ⟨h.front.len, h.front.cell⟩
  back := fun hidle => ⟨(h.back hidle).len, (h.back hidle).cell⟩
  copied := h.copied
  whole := fun msg hpc => ⟨(h.whole msg hpc).len, (h.whole msg hpc).cell⟩

theorem prefix_snoc {got msg : List β} (h : got <+: msg) (hlt : got.length < msg.length) :
    got++[msg[got.length]] <+: msg := by
  have htake := List.prefix_iff_eq_take.mp h
  have hsnoc : got++[msg[got.length]] = msg.take (got.length+1) := by
    rw [List.take_succ_eq_append_getElem hlt, ← htake]
  rw [hsnoc]
  exact List.take_prefix _ _

/-- What the reader holds stays right while the writer goes on. -/
theorem intact_writer {s t : State β τ} (hpast : s.start ≤ s.published.length)
    (hi : InTime s → Intact s) (hcount : t.count = s.count) (hgot : t.got = s.got)
    (hstart : t.start = s.start) (hpub : ∃ ms, t.published = s.published++ms)
    (hbegun : s.begun.length ≤ t.begun.length) (ht : InTime t) : Intact t := by
  have hs : InTime s := by
    rw [InTime, hstart] at ht
    exact Nat.le_trans hbegun ht
  obtain ⟨ms, hpub⟩ := hpub
  rw [Intact, hcount, hgot, hstart, hpub, nth_append _ _ _ hpast]
  exact hi hs

theorem intact_read {s : State β τ} (h : Slots s) (hl : Looked s) (ht : InTime s) (hi : Intact s)
    (n : ℕ) (hn : s.count = some n) (hlt : s.got.length < n) :
    s.got++[s.cells s.slot s.got.length] <+: nth s.published s.start := by
  have hlen := hi.1 n hn
  have hcell := (slot_holds h hl ht).cell s.got.length (hlen ▸ hlt)
  rw [hcell]
  exact prefix_snoc hi.2 (hlen ▸ hlt)

theorem inv_wake {next : τ → Option (List β) × τ} {x : τ} {s : State β τ} (h : Inv next x s)
    (hidle : s.pc = .idle) :
    Inv next x { s with
      pc := (next s.locals).1.elim .idle (fun msg => .copying msg 0)
      locals := (next s.locals).2
      wakes := s.wakes+1 } := by
  have hmessage : ((next s.locals).1.elim .idle (fun msg => .copying msg 0) : Pc β).message =
      (next s.locals).1.toList := by
    cases (next s.locals).1 <;> rfl
  have hbegun : s.begun = s.published := by
    rw [State.begun, hidle, Pc.message, List.append_nil]
  refine ⟨?_, ⟨h.looked.past, h.looked.same, h.looked.other⟩, ?_, ?_, ?_⟩
  · apply slots_wake h.slots _ _ _ hidle
    cases (next s.locals).1 with
    | none => exact .inl rfl
    | some msg => exact .inr ⟨msg, rfl⟩
  · refine intact_writer h.looked.past h.intact rfl rfl rfl ⟨[], (List.append_nil _).symm⟩ ?_
    rw [hbegun, begun_length]
    exact Nat.le_add_right _ _
  · rw [messages_succ, ← h.begun, hbegun, ← h.locals, State.begun]
    exact congrArg (s.published++·) hmessage
  · rw [Function.iterate_succ_apply', ← h.locals]

theorem inv_store {next : τ → Option (List β) × τ} {x : τ} {s : State β τ} (h : Inv next x s)
    (msg : List β) (done : ℕ) (hpc : s.pc = .copying msg done) :
    Inv next x (s.stored msg done) := by
  have hslots := slots_store h.slots msg done hpc
  have hbegun : (s.stored msg done).begun = s.begun := by
    rw [State.begun, State.begun, hpc, State.stored]
    split <;> rfl
  have hsame : (s.stored msg done).published = s.published ∧ (s.stored msg done).start = s.start ∧
      (s.stored msg done).slot = s.slot ∧ (s.stored msg done).writeIdx = s.writeIdx ∧
      (s.stored msg done).count = s.count ∧ (s.stored msg done).got = s.got ∧
      (s.stored msg done).wakes = s.wakes ∧ (s.stored msg done).locals = s.locals := by
    rw [State.stored]
    split <;> exact ⟨rfl, rfl, rfl, rfl, rfl, rfl, rfl, rfl⟩
  obtain ⟨hpub, hstart, hslot, hidx, hcount, hgot, hwakes, hlocals⟩ := hsame
  refine ⟨hslots, ?_, ?_, ?_, ?_⟩
  · refine ⟨?_, ?_, ?_⟩ <;> rw [hpub, hstart]
    · exact h.looked.past
    · rw [hslot, hidx]
      exact h.looked.same
    · rw [hslot, hidx]
      exact h.looked.other
  · exact intact_writer h.looked.past h.intact hcount hgot hstart
      ⟨[], by rw [hpub, List.append_nil]⟩ (Nat.le_of_eq (congrArg List.length hbegun.symm))
  · rw [hbegun, hwakes]
    exact h.begun
  · rw [hlocals, hwakes]
    exact h.locals

theorem inv_flip {next : τ → Option (List β) × τ} {x : τ} {s : State β τ} (h : Inv next x s)
    (msg : List β) (hpc : s.pc = .flipping msg) : Inv next x (s.flipped msg) := by
  have hbegun : (s.flipped msg).begun = s.begun := by
    rw [State.begun, State.begun, hpc]
    exact List.append_nil _
  have hlen : (s.flipped msg).published.length = s.published.length+1 := List.length_append
  refine ⟨slots_flip h.slots msg hpc, ⟨?_, ?_, ?_⟩, ?_, ?_, h.locals⟩
  · rw [hlen]
    exact Nat.le_succ_of_le h.looked.past
  · intro heq
    rw [hlen] at heq
    have hpast := h.looked.past
    change s.published.length+1 = s.start at heq
    omega
  · intro heq
    rw [hlen] at heq
    exact h.looked.same (Nat.succ.inj heq)
  · exact intact_writer h.looked.past h.intact rfl rfl rfl ⟨[msg], rfl⟩
      (Nat.le_of_eq (congrArg List.length hbegun.symm))
  · rw [hbegun]
    exact h.begun

theorem inv_step {next : τ → Option (List β) × τ} {x : τ} {s t : State β τ} (a : Act)
    (h : Inv next x s) (hs : step next s a = some t) : Inv next x t := by
  cases a with
  | wake =>
    rw [step] at hs
    split at hs
    · rename_i hidle
      cases hs
      exact inv_wake h hidle
    · cases hs
  | store =>
    rw [step] at hs
    split at hs
    · cases hs
    · rename_i msg done hpc
      cases hs
      exact inv_store h msg done hpc
    · rename_i msg hpc
      cases hs
      exact inv_flip h msg hpc
  | look =>
    cases hs
    refine ⟨slots_reader h.slots _ _ _ _,
      ⟨Nat.le_refl _, fun _ => rfl, fun heq => ?_⟩, fun _ => ?_, h.begun, h.locals⟩
    · exact absurd heq (Nat.ne_of_lt (Nat.lt_succ_self _))
    · exact ⟨(fun n hn => by cases hn), List.nil_prefix⟩
  | measure =>
    cases hs
    refine ⟨slots_reader h.slots _ _ _ _,
      ⟨h.looked.past, h.looked.same, h.looked.other⟩, fun ht => ?_, h.begun, h.locals⟩
    refine ⟨fun n hn => ?_, List.nil_prefix⟩
    cases hn
    exact (slot_holds h.slots h.looked ht).len
  | read =>
    rw [step] at hs
    split at hs
    · cases hs
    · rename_i n hn
      split at hs
      · rename_i hlt
        cases hs
        refine ⟨slots_reader h.slots _ _ _ _,
          ⟨h.looked.past, h.looked.same, h.looked.other⟩, fun ht => ?_, h.begun, h.locals⟩
        exact ⟨(h.intact ht).1, intact_read h.slots h.looked ht (h.intact ht) n hn hlt⟩
      · cases hs

theorem inv_exec {next : τ → Option (List β) × τ} {x : τ} (acts : List Act) (s t : State β τ)
    (h : Inv next x s) (he : exec (step next) s acts = some t) : Inv next x t :=
  exec_invariant (step next) (fun _ _ => True) (Inv next x)
    (fun _ a _ hi _ hs => inv_step a hi hs) acts s t h
    (along_of_forall _ _ (fun _ _ => trivial) _ _) he

/-- A reader in time that has as many cells as the length says has the message that was the
newest at its look, and the published messages are the first ones of the writer. -/
theorem read_whole (next : τ → Option (List β) × τ) (x : τ) (cells : Bool → ℕ → β)
    (acts : List Act) (s : State β τ) (he : exec (step next) (init cells x) acts = some s) :
    s.published <+: messages next s.wakes x ∧ s.start ≤ s.published.length ∧
      (InTime s → s.count = some s.got.length → s.got = nth s.published s.start) := by
  have h := inv_exec acts _ s (inv_init next cells x) he
  refine ⟨?_, h.looked.past, fun ht hc => ?_⟩
  · rw [← h.begun]
    exact List.prefix_append _ _
  · obtain ⟨hlen, hstart⟩ := h.intact ht
    exact hstart.eq_of_length (hlen _ hc)

end Lib.DoubleBuffer
