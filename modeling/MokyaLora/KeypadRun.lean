import MokyaLora.KeypadTrace

/-!
# Runs of the scanner

In every run each key follows its readings. So the queue gets what the readings call
for, as long as it is never full, and the mirror of the pressed keys lags behind the
matrix exactly while the press of a slot key is deferred.
-/

set_option autoImplicit false

namespace MokyaLora.Keypad
open Lib.Debounce Lib.Sweep
open MokyaLora.Ime (Keycode mokyaKeyNone keyFlagLongPress)

namespace Scanner

def reading (r : Row) (c : Col) : Action → Option Bool
  | .scan ring => some ((keypadRead ring r).getLsbD c)
  | _ => none

def readings (r : Row) (c : Col) (as : List Action) : List Bool :=
  (as.filterMap (reading r c)).reverse

variable (s : Scanner) (r : Row) (c : Col)

theorem scan_tick (ring : Fin 8 → BitVec 8) : (s.scan ring).gKpScanTick = s.gKpScanTick+1 := by
  have hcol : ∀ now raw r, ∀ t : Scanner × BitVec 8, ∀ c,
      (scanCol now raw r t c).1.gKpScanTick = t.1.gKpScanTick := by
    intro now raw r t c
    rw [scanCol]
    split <;> rfl
  have hrow : ∀ now raw, ∀ t : Scanner, ∀ r, (scanRow now raw t r).gKpScanTick = t.gKpScanTick :=
    fun now raw t r => sweep_other (scanCol now (raw r) r) (fun t => t.1.gKpScanTick)
      (List.finRange 6) (fun t c _ => hcol now (raw r) r t c) _
  have htimer : ∀ now, ∀ t : Scanner, ∀ r, (timerRow now t r).gKpScanTick = t.gKpScanTick := by
    intro now t r
    apply sweep_other (timerCol now r) gKpScanTick
    intro t c _
    rw [timerCol]
    split <;> rfl
  have hrows := sweep_other (scanRow s.gKpScanTick (keypadRead ring)) gKpScanTick (List.finRange 6)
    (fun t r _ => hrow _ _ t r) s
  have htimers := fun t => sweep_other (timerRow s.gKpScanTick) gKpScanTick (List.finRange 6)
    (fun t r _ => htimer _ t r) t
  exact congrArg (·+1) ((htimers _).trans hrows)

theorem scan_keeps (P : KeyEvents → Prop)
    (hpush : ∀ e kc pressed flags, P e → P (e.pushHwFlags kc pressed flags).1)
    (ring : Fin 8 → BitVec 8) (h : P s.events) : P (s.scan ring).events := by
  have hall : ∀ t : Scanner, ∀ kc ps, P t.events → P (t.pushAll kc ps).events := by
    intro t kc ps ht
    exact sweep_keeps (fun e p => (KeyEvents.pushHwFlags e kc p.1 p.2).1) P
      (fun e p he => hpush e kc p.1 p.2 he) ps t.events ht
  have hcol : ∀ now raw r, ∀ t : Scanner × BitVec 8, ∀ c, P t.1.events →
      P (scanCol now raw r t c).1.events := by
    intro now raw r t c ht
    rw [scanCol]
    split
    · exact hall _ _ _ ht
    · exact ht
  have hrow : ∀ now raw, ∀ t : Scanner, ∀ r, P t.events → P (scanRow now raw t r).events :=
    fun now raw t r ht => sweep_keeps (scanCol now (raw r) r) (fun t => P t.1.events)
      (fun t c => hcol now (raw r) r t c) (List.finRange 6) _ ht
  have htimer : ∀ now, ∀ t : Scanner, ∀ r, P t.events → P (timerRow now t r).events := by
    intro now t r ht
    apply sweep_keeps (timerCol now r) (fun t => P t.events) _ (List.finRange 6) t ht
    intro t c ht
    rw [timerCol]
    split
    · exact hall t _ _ ht
    · exact ht
  have hrows := sweep_keeps (scanRow s.gKpScanTick (keypadRead ring)) (fun t => P t.events)
    (fun t r => hrow _ _ t r) (List.finRange 6) s h
  have htimers := sweep_keeps (timerRow s.gKpScanTick) (fun t => P t.events)
    (fun t r => htimer _ t r) (List.finRange 6) _ hrows
  have hticked : ∀ t : Scanner, P t.events →
      P ({ t with gKpScanTick := t.gKpScanTick+1 } : Scanner).events := fun _ ht => ht
  exact hticked _ htimers

theorem start_follows (queueCreated viewCreated : Bool) :
    Follows (gKeymap r c) [] 0 ((start (.init queueCreated viewCreated)).key r c) := by
  constructor
  · exact ⟨rfl, rfl, rfl⟩
  · intro _
    exact ⟨rfl, fun h => LpState.noConfusion h⟩
  · exact BitVec.getLsbD_zero
  · rw [openPress, debouncedKey, downFor, upFor, debounced]
    have hzero : (start (.init queueCreated viewCreated)).events.holds (gKeymap r c) = false :=
      BitVec.getLsbD_zero
    rw [key, hzero]
    split <;> rfl
  · rfl

theorem next_follows (bs : List Bool) (a : Action)
    (h : Follows (gKeymap r c) bs s.gKpScanTick (s.key r c)) :
    Follows (gKeymap r c) ((reading r c a).toList++bs) (s.next a).gKpScanTick
      ((s.next a).key r c) := by
  cases a with
  | scan ring =>
    rw [next, scan_key, scan_tick]
    exact scan_follows _ (keymap_ne_none r c) h
  | inject kc pressed flags =>
    have hkey : (s.next (.inject kc pressed flags)).key r c = s.key r c := by
      rw [next, key, KeyEvents.inject_holds, KeyEvents.inject_strokes]
      rfl
    rw [hkey]
    exact h
  | pop =>
    have hkey : (s.next .pop).key r c = s.key r c := by
      rw [next, key, KeyEvents.pop_holds, KeyEvents.strokes, KeyEvents.pop_offered]
      rfl
    rw [hkey]
    exact h
  | viewPop =>
    have hkey : (s.next .viewPop).key r c = s.key r c := by
      rw [next, key, KeyEvents.view_pop_holds, KeyEvents.strokes, KeyEvents.view_pop_offered]
      rfl
    rw [hkey]
    exact h

theorem readings_cons (a : Action) (as : List Action) :
    readings r c (a::as) = readings r c as++(reading r c a).toList := by
  rw [readings, readings, List.filterMap_cons]
  cases reading r c a <;> simp

theorem run_follows (as : List Action) (bs : List Bool)
    (h : Follows (gKeymap r c) bs s.gKpScanTick (s.key r c)) :
    Follows (gKeymap r c) (readings r c as++bs) (s.run as).gKpScanTick ((s.run as).key r c) := by
  induction as generalizing s bs with
  | nil => exact h
  | cons a as ih =>
    rw [readings_cons, List.append_assoc]
    exact ih (s.next a) _ (next_follows s r c bs a h)

theorem started_follows (queueCreated viewCreated : Bool) (as : List Action) :
    let s := (start (.init queueCreated viewCreated)).run as
    Follows (gKeymap r c) (readings r c as) s.gKpScanTick (s.key r c) := by
  have h := run_follows (start (.init queueCreated viewCreated)) r c as []
    (start_follows r c queueCreated viewCreated)
  rwa [List.append_nil] at h

end Scanner

namespace KeyEvents

/-- The queue is there, so an event fails to get in only where it is full. -/
def Served (e : KeyEvents) : Prop :=
  e.queue ≠ none ∧ ∀ x ∈ e.offered, x.2 = .ok ∨ x.2 = .errQueueFull

def NeverFull (e : KeyEvents) : Prop := ∀ x ∈ e.offered, x.2 ≠ .errQueueFull

variable (e : KeyEvents)

theorem push_served (ev : KeyEvent) (h : e.Served) : (e.pushLocked ev).1.Served := by
  obtain ⟨q, hq⟩ := Option.ne_none_iff_exists'.mp h.1
  have hresult : (e.enqueue ev).1.queue ≠ none ∧
      ((e.enqueue ev).2 = .ok ∨ (e.enqueue ev).2 = .errQueueFull) := by
    rw [enqueue, hq]
    dsimp only
    cases xQueueSend keyEventQueueDepth q ev with
    | none => exact ⟨Option.some_ne_none q, .inr rfl⟩
    | some q' => exact ⟨Option.some_ne_none q', .inl rfl⟩
  refine ⟨hresult.1, ?_⟩
  intro x hx
  rcases List.mem_append.mp hx with hx | hx
  · exact h.2 x hx
  · rw [List.mem_singleton.mp hx]
    exact hresult.2

theorem hw_served (kc : Keycode) (pressed : Bool) (flags : UInt8) (h : e.Served) :
    (e.pushHwFlags kc pressed flags).1.Served := by
  rw [pushHwFlags]
  split
  · exact push_served _ _ h
  · exact h

theorem inject_served (kc : Keycode) (pressed : Bool) (flags : UInt8) (h : e.Served) :
    (e.pushInjectFlags kc pressed flags).1.Served := by
  rw [pushInjectFlags]
  split
  · split
    · exact h
    · exact push_served _ _ h
  · exact h

theorem pop_served (h : e.Served) : e.pop.1.Served := by
  rw [pop]
  split
  · exact ⟨Option.some_ne_none _, h.2⟩
  · exact h

theorem view_pop_served (h : e.Served) : e.viewPop.1.Served := by
  rw [viewPop]
  split
  · exact h
  · exact h

theorem emitted_eq (kc : Keycode) (h : e.Served) (hfull : e.NeverFull) :
    e.emitted kc = e.strokes kc := by
  apply List.filterMap_congr
  intro x hx
  have hok := (h.2 x hx).resolve_right (hfull x hx)
  simp only [hok, and_true]

end KeyEvents

namespace Scanner

theorem run_served (viewCreated : Bool) (as : List Action) :
    ((start (.init true viewCreated)).run as).events.Served := by
  apply sweep_keeps next (fun s => s.events.Served)
  · intro s a h
    cases a with
    | scan ring => exact scan_keeps s KeyEvents.Served KeyEvents.hw_served ring h
    | inject kc pressed flags => exact KeyEvents.inject_served _ kc pressed flags h
    | pop => exact KeyEvents.pop_served _ h
    | viewPop => exact KeyEvents.view_pop_served _ h
  · exact ⟨Option.some_ne_none [], fun x hx => absurd hx List.not_mem_nil⟩

/-- The scanner and its readings: what is committed, what is shown, what is emitted. -/
structure Scanned (s : Scanner) (r : Row) (c : Col) (bs : List Bool) : Prop where
  committed : (s.cell r c).stable = debouncedKey bs
  shown : (s.gKpStable r).getLsbD c = (s.cell r c).stable
  emitted : s.events.emitted (gKeymap r c) = emissions (gKeymap r c) bs
  changes : ∀ newer b older, bs = newer++b::older → debouncedKey (b::older) ≠ debouncedKey older →
    (record kpDebounceThreshold (b::older)).take kpDebounceThreshold =
      List.replicate kpDebounceThreshold (debouncedKey older, !debouncedKey older)
  paired : ∃ taps : List UInt8,
    (∀ f ∈ taps, f = 0 ∨ (keycodeDefersPress (gKeymap r c) = true ∧ f = keyFlagLongPress)) ∧
    s.events.emitted (gKeymap r c) = taps.flatMap tap++if openPress (gKeymap r c) bs then
      [(true, if keycodeDefersPress (gKeymap r c) then keyFlagLongPress else 0)] else []

/-- In every run in which the queue is never full, every key is scanned as it should. -/
theorem keys_scanned (viewCreated : Bool) (as : List Action) (r : Row) (c : Col)
    (hfull : ((start (.init true viewCreated)).run as).events.NeverFull) :
    Scanned ((start (.init true viewCreated)).run as) r c (readings r c as) := by
  have h := started_follows r c true viewCreated as
  have hemitted := (KeyEvents.emitted_eq _ (gKeymap r c) (run_served viewCreated as) hfull).trans
    h.strokes
  constructor
  · exact h.debounces.stable
  · exact h.shown.trans h.debounces.stable.symm
  · exact hemitted
  · intro newer b older _ hne
    exact change_record kpDebounceThreshold b older (by decide) hne
  · rw [hemitted]
    exact emissions_paired (gKeymap r c) (readings r c as)

def ringOf (r : Row) (c : Col) (i : Fin 8) : BitVec 8 :=
  if (i : ℕ) = r then ~~~Lib.Bits.bit c else ~~~0

def shortTap (r : Row) (c : Col) : List Action :=
  List.replicate 4 (.scan (ringOf r c))++List.replicate 4 (.scan (fun _ => ~~~0))

/-- A tap of the key in the second row and the first column. -/
theorem short_tap_scanned :
    Scanned ((start (.init true true)).run (shortTap 1 0)) 1 0 (readings 1 0 (shortTap 1 0)) :=
  keys_scanned true (shortTap 1 0) 1 0 (by unfold KeyEvents.NeverFull; decide +kernel)

/-- The bitmap shows the key as it is, and a press cannot be injected while it is down. -/
def Mirrored (s : Scanner) (r : Row) (c : Col) : Prop :=
  s.events.hwPressed.getLsbD (gKeymap r c).toNat = (s.cell r c).stable ∧
    ((s.cell r c).stable = true →
      ∀ flags, (s.events.pushInjectFlags (gKeymap r c) true flags).2 = .errBusy)

def Deferred (r : Row) (c : Col) (bs : List Bool) : Prop :=
  keycodeDefersPress (gKeymap r c) = true ∧ 0 < downFor bs ∧ downFor bs ≤ kpLongPressTicks

theorem open_iff (kc : Keycode) (bs : List Bool) : openPress kc bs = debouncedKey bs ↔
    ¬ (keycodeDefersPress kc = true ∧ 0 < downFor bs ∧ downFor bs ≤ kpLongPressTicks) := by
  by_cases hslot : keycodeDefersPress kc = true
  · rw [open_slot bs hslot, Bool.eq_iff_iff, decide_eq_true_iff, ← down_for_pos]
    constructor
    · rintro h ⟨-, hpos, hle⟩
      omega
    · intro h
      refine ⟨fun hlong => by omega, fun hpos => ?_⟩
      by_contra hle
      exact h ⟨hslot, hpos, not_lt.mp hle⟩
  · exact iff_of_true (open_direct bs hslot) (fun h => hslot h.1)

theorem started_stable (r : Row) (c : Col) (queueCreated viewCreated : Bool) (as : List Action) :
    (((start (.init queueCreated viewCreated)).run as).cell r c).stable =
      debouncedKey (readings r c as) :=
  (started_follows r c queueCreated viewCreated as).debounces.stable

theorem started_holds (r : Row) (c : Col) (queueCreated viewCreated : Bool) (as : List Action) :
    ((start (.init queueCreated viewCreated)).run as).events.holds (gKeymap r c) =
      openPress (gKeymap r c) (readings r c as) :=
  (started_follows r c queueCreated viewCreated as).held

/-- The bitmap mirrors a key exactly where no press of it is being deferred. -/
theorem mirrored_iff (queueCreated viewCreated : Bool) (as : List Action) (r : Row) (c : Col) :
    Mirrored ((start (.init queueCreated viewCreated)).run as) r c ↔
      ¬ Deferred r c (readings r c as) := by
  have hheld := started_holds r c queueCreated viewCreated as
  rw [Deferred, ← open_iff, ← hheld, ← started_stable r c queueCreated viewCreated as]
  constructor
  · exact fun hm => hm.1
  · intro hm
    refine ⟨hm, fun hdown flags => ?_⟩
    rw [KeyEvents.inject_busy _ _ flags (keymap_valid r c), hm]
    exact hdown

/-- The key is debounced as down, and its press can still be injected. -/
theorem deferred_press_injected :
    let s := (start (.init true true)).run (List.replicate 4 (.scan (ringOf 1 0)))
    (s.cell 1 0).stable = true ∧ (s.events.pushInject (gKeymap 1 0) true).2 ≠ .errBusy ∧
      ¬ Mirrored s 1 0 := by
  have hdown := started_stable 1 0 true true (List.replicate 4 (.scan (ringOf 1 0)))
  have hopen := started_holds 1 0 true true (List.replicate 4 (.scan (ringOf 1 0)))
  rw [show debouncedKey _ = true by decide] at hdown
  rw [show openPress _ _ = false by decide] at hopen
  refine ⟨hdown, ?_, ?_⟩
  · rw [KeyEvents.pushInject, ne_eq, KeyEvents.inject_busy _ _ _ (keymap_valid 1 0), hopen]
    exact Bool.false_ne_true
  · intro hm
    exact Bool.false_ne_true (hopen.symm.trans (hm.1.trans hdown))

end Scanner

end MokyaLora.Keypad
