import MokyaLora.ImeFlush
import MokyaLora.ImeReach

/-!
# The lock of the long-press cycle

A held key appends a byte, and held again in time it changes the phoneme of that
byte. Any other key is meant to end this. `MODE`, a commit of a candidate, a deleted
byte and a new byte do; the other keys leave the cycle open.
-/

set_option autoImplicit false

namespace MokyaLora.Ime
open Lib.Fields Lib.Memory Lib.Schedule

/-- The press changes the phoneme of a byte that is there. -/
def Recycles (s : ImeLogic) (ev : KeyEvent) : Prop :=
  ∃ slot, Routed s ev ∧ keycodeToInputSlot ev.keycode = some slot ∧ Cycles s ev slot

/-- A press that ends an open cycle: `MODE`, `DEL` of the byte itself, `OK` with a
candidate, or a new byte. -/
def Locks (s : ImeLogic) (ev : KeyEvent) : Prop :=
  Routed s ev ∧ (ev.keycode = mokyaKeyMode ∨
    ev.keycode = mokyaKeyDel ∧ ¬ s.multitapPending ∧
      (∀ i, s.lpCycle.byteIndex = some i → s.keySeqLen ≤ i+1) ∨
    ev.keycode = mokyaKeyOk ∧ s.hasCandidates = true ∨
    (keycodeToInputSlot ev.keycode).isSome = true ∧ s.keySeqLen < kMaxKeySeq)

inductive Turn (s t : ImeLogic) (ev : KeyEvent) : Prop
  | kept (h : t.lpCycle = s.lpCycle)
      (hl : s.lpCycle.byteIndex ≠ none → ¬ Locks s ev ∧ ¬ Recycles s ev)
  | locked (h : t.lpCycle.byteIndex = none) (hl : s.lpCycle.byteIndex ≠ none → Locks s ev)
  | opened (slot : ℕ) (hs : keycodeToInputSlot ev.keycode = some slot)
      (hf : ev.flags &&& keyFlagLongPress ≠ 0) (hl : Locks s ev)
      (h : t.lpCycle = ⟨some s.keySeqLen, some slot, 0, ev.nowMs⟩)
  | cycled (hr : Recycles s ev) (idx : ℕ)
      (h : t.lpCycle = { s.lpCycle with phonemeIdx := idx, lastMs := ev.nowMs })

section Frame

variable (env : Env) (s : ImeLogic)

theorem cycle_of_base {s t : ImeLogic} (h : t.base = s.base) : t.lpCycle = s.lpCycle :=
  congrArg (fun b => b.2.2.2.2.2) h

@[simp] theorem log_cycle (e : Event) : (s.log env e).lpCycle = s.lpCycle :=
  cycle_of_base (log_quiet env s e).1

@[simp] theorem notify_cycle : (s.notifyChanged env).lpCycle = s.lpCycle := log_cycle env s _

@[simp] theorem emit_cycle (site : CommitSite) (str : Bytes) :
    (s.emitCommit env site str).lpCycle = s.lpCycle :=
  cycle_of_base (emit_commit_quiet env s site str).1

@[simp] theorem run_search_cycle : (s.runSearch env).lpCycle = s.lpCycle :=
  cycle_of_base (run_search_base env s)

theorem keys_changed_base : (s.keysChanged env).base = s.base :=
  (log_quiet env _ _).1.trans (run_search_base env s)

@[simp] theorem keys_changed_cycle : (s.keysChanged env).lpCycle = s.lpCycle :=
  cycle_of_base (keys_changed_base env s)

@[simp] theorem multitap_commit_cycle : (s.multitapCommit env).lpCycle = s.lpCycle :=
  (multitap_commit_keys env s).2.2.1

@[simp] theorem multitap_press_cycle (kc : Keycode) (n : ℕ) (inverted : Bool) (nowMs : UInt32) :
    (s.multitapPress env kc n inverted nowMs).lpCycle = s.lpCycle := by
  unfold ImeLogic.multitapPress
  dsimp only
  rw [notify_cycle]
  split
  · rfl
  · exact multitap_commit_cycle env s

theorem handle_sym1_cycle (pressed : Bool) (nowMs : UInt32) :
    (s.handleSym1 env pressed nowMs).1.lpCycle = s.lpCycle := by
  unfold ImeLogic.handleSym1
  split
  · split <;> rfl
  · split
    · rfl
    · dsimp only
      split
      · rfl
      · split
        · exact notify_cycle env _
        · rw [notify_cycle, emit_cycle, multitap_commit_cycle]

theorem handle_picker_cycle (kc : Keycode) : (s.handlePicker env kc).1.lpCycle = s.lpCycle := by
  unfold ImeLogic.handlePicker
  split
  · exact notify_cycle env _
  · dsimp only
    split
    · rw [notify_cycle, emit_cycle]
    · exact notify_cycle env _

theorem handle_dpad_cycle (dir : NavDir) : (s.handleDpad env dir).1.lpCycle = s.lpCycle := by
  unfold ImeLogic.handleDpad
  split
  · cases dir with
    | left => exact notify_cycle env _
    | right => exact notify_cycle env _
    | up => rfl
    | down => rfl
  · exact log_cycle env s _

theorem handle_sym2_cycle (nowMs : UInt32) : (s.handleSym2 env nowMs).1.lpCycle = s.lpCycle := by
  unfold ImeLogic.handleSym2
  dsimp only
  rw [notify_cycle]
  generalize hu : (if s.multitap.keycode = mokyaKeySym2 then s else s.multitapCommit env) = u
  have hcycle : u.lpCycle = s.lpCycle := by
    rw [← hu]
    split
    · rfl
    · exact multitap_commit_cycle env s
  rw [← hcycle]
  split <;> rfl

theorem commit_partial_cycle (site : CommitSite) (str : Bytes) (n : ℕ) :
    (s.commitPartial env site str n).lpCycle.byteIndex = none := by
  unfold ImeLogic.commitPartial
  dsimp only
  rw [run_search_cycle]
  rfl

theorem commit_selected_cycle (h : s.hasCandidates = true) :
    (s.commitSelectedCandidate env).lpCycle.byteIndex = none := by
  have hlt := selected_lt s h
  unfold ImeLogic.commitSelectedCandidate
  dsimp only
  generalize (if s.selected < s.candidates.length then s.selected else 0) = sel at hlt ⊢
  rw [List.getElem?_eq_getElem hlt]
  dsimp only
  split
  · exact commit_partial_cycle env _ _ _ _
  · exact commit_partial_cycle env s _ _ _

theorem cycle_mode_locked : (s.cycleMode env).lpCycle.byteIndex = none := by
  unfold ImeLogic.cycleMode
  dsimp only
  rw [notify_cycle]
  rfl

end Frame

section Turns

variable (env : Env) {s : ImeLogic} {ev : KeyEvent}

theorem closed_of_mode (h : Inv s) (hm : s.mode ≠ .smartZh) : s.lpCycle.byteIndex = none := by
  by_contra hopen
  obtain ⟨i, hi⟩ := Option.ne_none_iff_exists'.mp hopen
  exact hm (h.ready.cycle i hi).1

theorem locks_input (hk : InputKey ev.keycode) (h : Locks s ev) :
    (keycodeToInputSlot ev.keycode).isSome = true ∧ s.keySeqLen < kMaxKeySeq := by
  obtain ⟨hmode, hdel, -, hok, -⟩ := hk
  rcases h.2 with h | h | h | h
  · exact absurd h hmode
  · exact absurd h.1 hdel
  · exact absurd h.1 hok
  · exact h

theorem locks_del (hk : ev.keycode = mokyaKeyDel) (h : Locks s ev) : ¬ s.multitapPending ∧
    ∀ i, s.lpCycle.byteIndex = some i → s.keySeqLen ≤ i+1 := by
  have hother : mokyaKeyDel ≠ mokyaKeyMode ∧ mokyaKeyDel ≠ mokyaKeyOk ∧
      keycodeToInputSlot mokyaKeyDel = none := by decide
  rcases h.2 with h | h | h | h
  · exact absurd (hk.symm.trans h) hother.1
  · exact h.2
  · exact absurd (hk.symm.trans h.1) hother.2.1
  · rw [hk, hother.2.2] at h
    cases h.1

theorem locks_ok (hk : ev.keycode = mokyaKeyOk) (h : Locks s ev) : s.hasCandidates = true := by
  have hother : mokyaKeyOk ≠ mokyaKeyMode ∧ mokyaKeyOk ≠ mokyaKeyDel ∧
      keycodeToInputSlot mokyaKeyOk = none := by decide
  rcases h.2 with h | h | h | h
  · exact absurd (hk.symm.trans h) hother.1
  · exact absurd (hk.symm.trans h.1) hother.2.1
  · exact h.2
  · rw [hk, hother.2.2] at h
    cases h.1

theorem not_recycles_other (hs : keycodeToInputSlot ev.keycode = none) : ¬ Recycles s ev := by
  rintro ⟨slot, -, hslot, -⟩
  rw [hs] at hslot
  cases hslot

/-- A press that recycles rewrites the phoneme of the byte and appends none. -/
theorem recycles_byte (h : Recycles s ev) : ∃ i idx, s.lpCycle.byteIndex = some i ∧
    (s.processKey env ev).1.keySeqLen = s.keySeqLen ∧
    (s.processKey env ev).1.phonemeHint = store s.phonemeHint i (UInt8.ofNat idx) := by
  obtain ⟨slot, hr, hs, hzh, hf, hopen, hslot, htime⟩ := h
  obtain ⟨-, -, hmode, hdel, hnav, hok, hsym2, hspace, htab⟩ := input_plain ev.keycode slot hs
  obtain ⟨-, e, -, hget, -⟩ := input_slot ev.keycode slot hs
  obtain ⟨i, hb⟩ := Option.ne_none_iff_exists'.mp hopen
  generalize hu : s.stampNow ev.nowMs = u
  generalize hv : (if u.multitapPending ∧ u.multitap.keycode ≠ ev.keycode then
    u.multitapCommit env else u) = v
  have hkeep : v.lpCycle = s.lpCycle ∧ v.keySeqLen = s.keySeqLen ∧ v.mode = s.mode ∧
      v.phonemeHint = s.phonemeHint := by
    rw [← hv]
    split
    · obtain ⟨tap, hb⟩ := multitap_commit_base env u
      simp only [ImeLogic.base, Prod.mk.injEq] at hb
      rw [hb.1, hb.2.2.1, hb.2.2.2.1, hb.2.2.2.2.2, ← hu]
      exact ⟨rfl, rfl, rfl, rfl⟩
    · rw [← hu]
      exact ⟨rfl, rfl, rfl, rfl⟩
  obtain ⟨hc, hl, hm, hh⟩ := hkeep
  generalize hidx : (v.lpCycle.phonemeIdx+1) %
    (if e.phonemes.length = 0 then 1 else e.phonemes.length) = idx
  have hpress : (s.processKey env ev).1 = (v.smartLongPress env slot e ev.nowMs).1 := by
    have hrouted : Routed u ev := hu ▸ hr
    rw [ImeLogic.processKey, hu, dispatch_input env u ev hrouted ⟨hmode, hdel, hnav, hok, hsym2⟩,
      ImeLogic.handleInput, hv, hm, hzh]
    dsimp only
    rw [ImeLogic.handleSmart, if_neg hspace, if_neg htab, hs]
    dsimp only
    rw [hget]
    dsimp only
    rw [if_neg (by rw [hm, hzh]; simp), if_pos ⟨hm.trans hzh, hf⟩]
  rw [hpress, long_press_due env v slot i e ev.nowMs (hc ▸ hb) (hc ▸ hslot) (hc ▸ htime) idx hidx]
  refine ⟨i, idx, hb, ?_, ?_⟩
  · show (ImeLogic.keysChanged env _).base.2.2.1 = _
    rw [keys_changed_base]
    exact hl
  · show (ImeLogic.keysChanged env _).base.2.2.2.1 = _
    rw [keys_changed_base, ← hh]
    rfl

theorem kept_input {t : ImeLogic} (hk : InputKey ev.keycode)
    (hs : keycodeToInputSlot ev.keycode = none ∨ kMaxKeySeq ≤ s.keySeqLen ∧ ¬ Recycles s ev)
    (h : t.lpCycle = s.lpCycle) : Turn s t ev := by
  refine .kept h (fun _ => ⟨fun hl => ?_, ?_⟩)
  · obtain ⟨hsome, hroom⟩ := locks_input hk hl
    rcases hs with hnone | ⟨hfull, -⟩
    · rw [hnone] at hsome
      cases hsome
    · omega
  · rcases hs with hnone | ⟨-, hno⟩
    · exact not_recycles_other hnone
    · exact hno

theorem smart_space_turn (hi : Inv s) (hk : InputKey ev.keycode)
    (hs : keycodeToInputSlot ev.keycode = none) (u : ImeLogic) (hc : u.lpCycle = s.lpCycle)
    (hm : u.mode = s.mode) : Turn s (u.smartSpace env).1 ev := by
  unfold ImeLogic.smartSpace
  split
  · apply kept_input hk (Or.inl hs)
    rw [notify_cycle, emit_cycle, hc]
  · split
    · split
      · apply kept_input hk (Or.inl hs)
        rw [keys_changed_cycle]
        exact hc
      · exact kept_input hk (Or.inl hs) hc
    · rename_i hzh
      have hclosed := closed_of_mode hi (hm ▸ hzh)
      dsimp only
      refine .locked ?_ (fun hopen => absurd hclosed hopen)
      rw [notify_cycle, emit_cycle]
      split
      · exact commit_selected_cycle env u (by assumption)
      · split
        · exact (congrArg LpCycleState.byteIndex hc).trans hclosed
        · exact (congrArg LpCycleState.byteIndex hc).trans hclosed

theorem smart_digit_turn (hi : Inv s) (u : ImeLogic) (hc : u.lpCycle = s.lpCycle)
    (hen : s.mode = .smartEn) (kc : Keycode) (e : KeyEntry) (nowMs : UInt32) :
    Turn s (u.smartDigit env kc e nowMs).1 ev := by
  have hclosed := closed_of_mode hi (by rw [hen]; decide)
  refine .locked ?_ (fun hopen => absurd hclosed hopen)
  have hnone := (congrArg LpCycleState.byteIndex hc).trans hclosed
  unfold ImeLogic.smartDigit
  dsimp only
  rw [multitap_press_cycle]
  split
  · split
    · exact commit_selected_cycle env u (by assumption)
    · exact hnone
  · exact hnone

theorem long_press_turn (hr : Routed s ev) (hk : InputKey ev.keycode) (slot : ℕ)
    (hs : keycodeToInputSlot ev.keycode = some slot) (hzh : s.mode = .smartZh)
    (hf : ev.flags &&& keyFlagLongPress ≠ 0) (u : ImeLogic) (hc : u.lpCycle = s.lpCycle)
    (hl : u.keySeqLen = s.keySeqLen) (e : KeyEntry) :
    Turn s (u.smartLongPress env slot e ev.nowMs).1 ev := by
  by_cases hcycles : Cycles s ev slot
  · obtain ⟨-, -, hopen, hslot, htime⟩ := hcycles
    obtain ⟨i, hb⟩ := Option.ne_none_iff_exists'.mp hopen
    rw [← hc] at hb hslot htime
    generalize hidx : (u.lpCycle.phonemeIdx+1) %
      (if e.phonemes.length = 0 then 1 else e.phonemes.length) = idx
    rw [long_press_due env u slot i e ev.nowMs hb hslot htime idx hidx]
    refine .cycled ⟨slot, hr, hs, hzh, hf, hopen, hc ▸ hslot, hc ▸ htime⟩ idx ?_
    rw [keys_changed_cycle, ← hc, ← hb, ← hslot]
  · rw [long_press_late env u slot e ev.nowMs (by
      rw [hc]
      exact fun hopen h => hcycles ⟨hzh, hf, hopen, h⟩)]
    unfold ImeLogic.smartLongPress.appendLong
    split
    · rename_i hroom
      rw [hl] at hroom
      refine .opened slot hs hf ⟨hr, .inr (.inr (.inr ⟨by rw [hs]; rfl, hroom⟩))⟩ ?_
      rw [keys_changed_cycle, ← hl]
    · rename_i hfull
      refine kept_input hk (Or.inr ⟨by omega, ?_⟩) hc
      rintro ⟨slot', -, hs', hcycles'⟩
      rw [hs, Option.some.injEq] at hs'
      exact hcycles (hs' ▸ hcycles')

theorem handle_smart_turn (hi : Inv s) (hr : Routed s ev) (hk : InputKey ev.keycode) (u : ImeLogic)
    (hc : u.lpCycle = s.lpCycle) (hl : u.keySeqLen = s.keySeqLen) (hm : u.mode = s.mode) :
    Turn s (u.handleSmart env ev).1 ev := by
  have hspace : keycodeToInputSlot mokyaKeySpace = none := by decide
  have htab : keycodeToInputSlot mokyaKeyTab = none := by decide
  unfold ImeLogic.handleSmart
  split
  · rename_i hkey
    exact smart_space_turn env hi hk (hkey ▸ hspace) u hc hm
  · split
    · rename_i hkey
      apply kept_input hk (Or.inl (hkey ▸ htab))
      unfold ImeLogic.smartTab
      split
      · rw [notify_cycle]
        exact hc
      · exact hc
    · cases hs : keycodeToInputSlot ev.keycode with
      | none => exact kept_input hk (Or.inl hs) hc
      | some slot =>
        obtain ⟨-, e, -, hget, -⟩ := input_slot ev.keycode slot hs
        dsimp only
        rw [hget]
        dsimp only
        split
        · rename_i hen
          exact smart_digit_turn env hi u hc (hm ▸ hen.1) _ e _
        · split
          · rename_i hlong
            exact long_press_turn env hr hk slot hs (hm ▸ hlong.1) hlong.2 u hc hl e
          · rename_i hshort
            unfold ImeLogic.smartShortTap
            split
            · rename_i hroom
              rw [hl] at hroom
              refine .locked ?_ (fun _ => ⟨hr, .inr (.inr (.inr ⟨by rw [hs]; rfl, hroom⟩))⟩)
              rw [keys_changed_cycle]
            · rename_i hfull
              refine kept_input hk (Or.inr ⟨by omega, ?_⟩) hc
              rintro ⟨-, -, -, hzh, hf, -⟩
              exact hshort ⟨hm.trans hzh, hf⟩

theorem handle_direct_turn (hi : Inv s) (u : ImeLogic) (hc : u.lpCycle = s.lpCycle)
    (hd : s.mode = .direct) : Turn s (u.handleDirect env ev).1 ev := by
  have hclosed := closed_of_mode hi (by rw [hd]; decide)
  refine .kept ?_ (fun hopen => absurd hclosed hopen)
  unfold ImeLogic.handleDirect
  split
  · rw [notify_cycle, emit_cycle, multitap_commit_cycle, hc]
  · split
    · rw [notify_cycle, emit_cycle, multitap_commit_cycle, hc]
    · split
      · exact hc
      · split
        · exact hc
        · rw [multitap_press_cycle, hc]

theorem kept_other {t : ImeLogic} (h : t.lpCycle = s.lpCycle)
    (hn : Routed s ev → ev.keycode ≠ mokyaKeyMode ∧ ev.keycode ≠ mokyaKeyDel ∧
      ev.keycode ≠ mokyaKeyOk ∧ keycodeToInputSlot ev.keycode = none) : Turn s t ev := by
  refine .kept h (fun _ => ⟨fun hl => ?_, fun hrec => ?_⟩)
  · obtain ⟨hmode, hdel, hok, hslot⟩ := hn hl.1
    rcases hl.2 with hk | hk | hk | hk
    · exact hmode hk
    · exact hdel hk.1
    · exact hok hk.1
    · rw [hslot] at hk
      cases hk.1
  · have hr : Routed s ev := hrec.choose_spec.1
    exact not_recycles_other (hn hr).2.2.2 hrec

theorem handle_del_turn (hi : Inv s) (hr : Routed s ev) (hk : ev.keycode = mokyaKeyDel)
    (u : ImeLogic) (hu : u.base = s.base) : Turn s (u.handleDel env).1 ev := by
  have hc := cycle_of_base hu
  have hlen : u.keySeqLen = s.keySeqLen := congrArg (fun b => b.2.2.1) hu
  have hpend : u.multitapPending ↔ s.multitapPending := by
    have htap : u.multitap = s.multitap := congrArg (fun b => b.2.2.2.2.1) hu
    rw [ImeLogic.multitapPending, ImeLogic.multitapPending, htap]
  have hcannot : ¬ Recycles s ev := not_recycles_other (by rw [hk]; decide)
  unfold ImeLogic.handleDel
  split
  · rename_i hp
    refine .kept ?_ (fun _ => ⟨fun hl => (locks_del hk hl).1 (hpend.mp hp), hcannot⟩)
    rw [notify_cycle]
    exact hc
  · rename_i hp
    split
    · dsimp only
      by_cases hlast : u.lpCycle.byteIndex.any (fun i => decide (u.keySeqLen-1 ≤ i)) = true
      · refine .locked ?_ (fun _ => ⟨hr, .inr (.inl ⟨hk, mt hpend.mpr hp, fun i hb => ?_⟩)⟩)
        · rw [keys_changed_cycle, ImeLogic.keyRemove]
          dsimp only
          rw [if_pos hlast]
        · rw [hc, hb, Option.any_some, decide_eq_true_iff] at hlast
          omega
      · refine .kept ?_ (fun hopen => ⟨fun hl => ?_, hcannot⟩)
        · rw [keys_changed_cycle, ImeLogic.keyRemove]
          dsimp only
          rw [if_neg hlast]
          exact hc
        · obtain ⟨i, hb⟩ := Option.ne_none_iff_exists'.mp hopen
          have := (locks_del hk hl).2 i hb
          rw [hc, hb, Option.any_some, decide_eq_true_iff] at hlast
          omega
    · rename_i hzero
      refine .kept ?_ (fun hopen => ⟨fun _ => ?_, hcannot⟩)
      · exact (log_cycle env u _).trans hc
      · obtain ⟨i, hb⟩ := Option.ne_none_iff_exists'.mp hopen
        have := (hi.ready.cycle i hb).2.1
        omega

theorem handle_ok_turn (hr : Routed s ev) (hk : ev.keycode = mokyaKeyOk) (u : ImeLogic)
    (hc : u.lpCycle = s.lpCycle) (hcand : u.hasCandidates = s.hasCandidates) :
    Turn s (u.handleOk env).1 ev := by
  have hcannot : ¬ Recycles s ev := not_recycles_other (by rw [hk]; decide)
  unfold ImeLogic.handleOk
  split
  · rename_i hyes
    refine .locked ?_ (fun _ => ⟨hr, .inr (.inr (.inl ⟨hk, hcand ▸ hyes⟩))⟩)
    rw [notify_cycle]
    exact commit_selected_cycle env u hyes
  · rename_i hno
    refine .kept ?_ (fun _ => ⟨fun hl => hno (hcand ▸ locks_ok hk hl), hcannot⟩)
    split
    · rw [notify_cycle, multitap_commit_cycle, hc]
    · rw [notify_cycle, emit_cycle, hc]

theorem nav_other (kc : Keycode) (dir : NavDir) (h : ImeLogic.navDir kc = some dir) :
    kc ≠ mokyaKeyMode ∧ kc ≠ mokyaKeyDel ∧ kc ≠ mokyaKeyOk ∧ keycodeToInputSlot kc = none := by
  have harrow : kc = mokyaKeyLeft ∨ kc = mokyaKeyRight ∨ kc = mokyaKeyUp ∨ kc = mokyaKeyDown := by
    by_contra hno
    push Not at hno
    rw [ImeLogic.navDir, if_neg hno.1, if_neg hno.2.1, if_neg hno.2.2.1, if_neg hno.2.2.2] at h
    cases h
  rcases harrow with rfl | rfl | rfl | rfl <;> decide

theorem handle_input_turn (hi : Inv s) (hr : Routed s ev) (hk : InputKey ev.keycode) (u : ImeLogic)
    (hu : u.base = s.base) : Turn s (u.handleInput env ev).1 ev := by
  unfold ImeLogic.handleInput
  dsimp only
  generalize hv : (if u.multitapPending ∧ u.multitap.keycode ≠ ev.keycode then
    u.multitapCommit env else u) = v
  have hkeep : v.lpCycle = s.lpCycle ∧ v.keySeqLen = s.keySeqLen ∧ v.mode = s.mode := by
    have hbase : u.lpCycle = s.lpCycle ∧ u.keySeqLen = s.keySeqLen ∧ u.mode = s.mode :=
      ⟨cycle_of_base hu, congrArg (fun b => b.2.2.1) hu, congrArg (fun b => b.1) hu⟩
    rw [← hv]
    split
    · obtain ⟨-, hlen, hc, hm⟩ := multitap_commit_keys env u
      exact ⟨hc.trans hbase.1, hlen.trans hbase.2.1, hm.trans hbase.2.2⟩
    · exact hbase
  obtain ⟨hc, hl, hm⟩ := hkeep
  split
  · rename_i hd
    exact handle_direct_turn env hi v hc (hm ▸ hd)
  · exact handle_smart_turn env hi hr hk v hc hl hm

/-- What a press does to the cycle, in every state and for every key. -/
theorem press_turn (hi : Inv s) : Turn s (s.processKey env ev).1 ev := by
  have hsym2 : mokyaKeySym2 ≠ mokyaKeyMode ∧ mokyaKeySym2 ≠ mokyaKeyDel ∧
      mokyaKeySym2 ≠ mokyaKeyOk ∧ keycodeToInputSlot mokyaKeySym2 = none := by decide
  rw [ImeLogic.processKey]
  generalize hu : s.stampNow ev.nowMs = u
  have hbase : u.base = s.base := hu ▸ rfl
  have hcand : u.hasCandidates = s.hasCandidates := hu ▸ rfl
  have hrouted : Routed u ev ↔ Routed s ev := hu ▸ Iff.rfl
  have hc := cycle_of_base hbase
  apply dispatch_rule env u ev (fun r => Turn s r.1 ev)
  case ignored =>
    intro hno
    exact kept_other hc (fun hr => absurd (hrouted.mpr hr) hno)
  case sym1 =>
    intro hno _
    refine kept_other ?_ (fun hr => absurd (hrouted.mpr hr) hno)
    rw [handle_sym1_cycle, hc]
  case picker =>
    intro hno
    refine kept_other ?_ (fun hr => absurd (hrouted.mpr hr) hno)
    rw [handle_picker_cycle, hc]
  case mode =>
    intro hr hmode
    exact .locked (cycle_mode_locked env u) (fun _ => ⟨hrouted.mp hr, .inl hmode⟩)
  case del =>
    intro hr hdel
    exact handle_del_turn env hi (hrouted.mp hr) hdel u hbase
  case nav =>
    intro _ dir hnav
    refine kept_other ?_ (fun _ => nav_other ev.keycode dir hnav)
    rw [handle_dpad_cycle, hc]
  case ok =>
    intro hr hok
    exact handle_ok_turn env (hrouted.mp hr) hok u hc hcand
  case sym2 =>
    intro _ hkey
    refine kept_other ?_ (fun _ => hkey ▸ hsym2)
    rw [handle_sym2_cycle, hc]
  case input =>
    intro hr hkey
    exact handle_input_turn env hi (hrouted.mp hr) hkey u hbase

end Turns

/-- The engine with the last key that was pressed. -/
structure Watched where
  logic : ImeLogic
  last : Option KeyEvent

def lastPress (last : Option KeyEvent) : Call → Option KeyEvent
  | .processKey ev => if ev.pressed then some ev else last
  | _ => last

def Watched.step (env : Env) (w : Watched) (c : Call) : Option Watched :=
  some ⟨w.logic.apply env c, lastPress w.last c⟩

def Watched.start : Watched := ⟨.init, none⟩

/-- A byte is cycled only by a key whose last press before was a long one in time, and
a press that does not cycle it locks it. -/
structure CycleContract (env : Env) (w : Watched) (c : Call) : Prop where
  follows : ∀ ev, c = .processKey ev → Recycles w.logic ev → ∃ p, w.last = some p ∧
    keycodeToInputSlot p.keycode = keycodeToInputSlot ev.keycode ∧
    p.flags &&& keyFlagLongPress ≠ 0 ∧ ev.nowMs-p.nowMs < kMultiTapTimeoutMs
  locks : ∀ ev i, c = .processKey ev → ev.pressed = true →
    w.logic.lpCycle.byteIndex = some i → ¬ Recycles w.logic ev →
    (w.logic.apply env c).lpCycle.byteIndex ≠ some i

def PressLocks (w : Watched) (c : Call) : Prop :=
  ∀ ev, c = .processKey ev → ev.pressed = true → w.logic.lpCycle.byteIndex ≠ none →
    ¬ Recycles w.logic ev → Locks w.logic ev

/-- An open cycle was left by the last press. -/
def LeftByLast (w : Watched) : Prop :=
  w.logic.lpCycle.byteIndex ≠ none → ∃ p, w.last = some p ∧
    keycodeToInputSlot p.keycode = w.logic.lpCycle.slot ∧ w.logic.lpCycle.slot ≠ none ∧
    p.flags &&& keyFlagLongPress ≠ 0 ∧ p.nowMs = w.logic.lpCycle.lastMs

section Runs

variable (env : Env)

theorem locks_iff (s : ImeLogic) (hi : Inv s) (ev : KeyEvent) (i : ℕ)
    (hb : s.lpCycle.byteIndex = some i) (hno : ¬ Recycles s ev) :
    (s.processKey env ev).1.lpCycle.byteIndex ≠ some i ↔ Locks s ev := by
  have hopen : s.lpCycle.byteIndex ≠ none := by simp [hb]
  have hturn : Turn s (s.processKey env ev).1 ev := press_turn env hi
  cases hturn with
  | kept h hl =>
    rw [h]
    exact iff_of_false (not_not.mpr hb) (hl hopen).1
  | locked h hl =>
    rw [h]
    exact iff_of_true (fun h => by cases h) (hl hopen)
  | opened slot hs hf hl h =>
    rw [h]
    have hlt := (hi.ready.cycle i hb).2.1
    refine iff_of_true (fun heq => ?_) hl
    have := Option.some.inj heq
    omega
  | cycled hr idx h => exact absurd hr hno

theorem expire_cycle (s : ImeLogic) (nowMs : UInt32) :
    (s.expireMultitap env nowMs).1.lpCycle = s.lpCycle := by
  unfold ImeLogic.expireMultitap
  split
  · exact multitap_commit_cycle env s
  · rfl

theorem lock_cycle_turn (s : ImeLogic) (nowMs : UInt32) :
    (s.lockCycle nowMs).lpCycle = s.lpCycle ∨ (s.lockCycle nowMs).lpCycle.byteIndex = none := by
  unfold ImeLogic.lockCycle
  split
  · exact Or.inr rfl
  · exact Or.inl rfl

theorem tick_turn (s : ImeLogic) (nowMs : UInt32) :
    (s.tick env nowMs).1.lpCycle = s.lpCycle ∨ (s.tick env nowMs).1.lpCycle.byteIndex = none := by
  rw [tick_eq]
  dsimp only
  generalize hu : (((s.stampNow nowMs).expireMultitap env nowMs).1.openPicker nowMs).1 = u
  have hc : u.lpCycle = s.lpCycle := by
    rw [← hu]
    unfold ImeLogic.openPicker
    split
    · exact expire_cycle env _ nowMs
    · exact expire_cycle env _ nowMs
  rw [← hc]
  split
  · rw [notify_cycle]
    exact lock_cycle_turn u nowMs
  · exact lock_cycle_turn u nowMs

theorem quiet_turn (s : ImeLogic) (hi : Inv s) (c : Call) (hc : lastPress none c = none) :
    (s.apply env c).lpCycle = s.lpCycle ∨ (s.apply env c).lpCycle.byteIndex = none := by
  cases c with
  | processKey ev =>
    have hup : ev.pressed = false := by
      cases hp : ev.pressed with
      | false => rfl
      | true => simp [lastPress, hp] at hc
    have hno : ¬ Routed s ev := by
      rintro ⟨-, -, hdown, -⟩
      rw [hup] at hdown
      cases hdown
    have hturn : Turn s (s.processKey env ev).1 ev := press_turn env hi
    cases hturn with
    | kept h hl => exact Or.inl h
    | locked h hl => exact Or.inr h
    | opened slot hs hf hl h => exact absurd hl.1 hno
    | cycled hr idx h => exact absurd hr.choose_spec.1 hno
  | tick nowMs => exact tick_turn env s nowMs
  | abort =>
    right
    unfold ImeLogic.apply ImeLogic.abort
    dsimp only
    split
    · rw [notify_cycle]
      rfl
    · rfl
  | setSelected idx =>
    left
    unfold ImeLogic.apply ImeLogic.setSelected
    dsimp only
    split
    · rfl
    · exact notify_cycle env _
  | setTextContext prev =>
    left
    unfold ImeLogic.apply ImeLogic.setTextContext
    dsimp only
    split <;> rfl
  | loadLru buf => exact Or.inl rfl

theorem left_by_last_press (s : ImeLogic) (ev : KeyEvent) (hi : Inv s)
    (hc : s.lpCycle.byteIndex ≠ none → ¬ Recycles s ev → Locks s ev) :
    LeftByLast ⟨(s.processKey env ev).1, some ev⟩ := by
  intro hopen
  dsimp only at hopen ⊢
  have hturn : Turn s (s.processKey env ev).1 ev := press_turn env hi
  cases hturn with
  | kept hk hl =>
    rw [hk] at hopen
    obtain ⟨hnl, hnr⟩ := hl hopen
    exact absurd (hc hopen hnr) hnl
  | locked hk hl => exact absurd hk hopen
  | opened slot hs hf hl hk =>
    refine ⟨ev, rfl, ?_, ?_, hf, ?_⟩
    · rw [hk, hs]
    · rw [hk]
      exact Option.some_ne_none slot
    · rw [hk]
  | cycled hr idx hk =>
    obtain ⟨slot, -, hs, -, hf, -, hslot, -⟩ := hr
    refine ⟨ev, rfl, ?_, ?_, hf, ?_⟩
    · rw [hk, hs, hslot]
    · rw [hk, hslot]
      exact Option.some_ne_none slot
    · rw [hk]

theorem left_by_last_step (w : Watched) (c : Call) (hi : Inv w.logic) (h : LeftByLast w)
    (hc : PressLocks w c) : LeftByLast ⟨w.logic.apply env c, lastPress w.last c⟩ := by
  by_cases hquiet : lastPress none c = none
  · have hlast : lastPress w.last c = w.last := by
      cases c with
      | processKey ev =>
        cases hp : ev.pressed with
        | false => simp [lastPress, hp]
        | true => simp [lastPress, hp] at hquiet
      | _ => rfl
    rw [hlast]
    intro hopen
    dsimp only at hopen ⊢
    rcases quiet_turn env w.logic hi c hquiet with hsame | hnone
    · rw [hsame] at hopen ⊢
      exact h hopen
    · exact absurd hnone hopen
  · cases c with
    | processKey ev =>
      cases hp : ev.pressed with
      | false => simp [lastPress, hp] at hquiet
      | true =>
        have hlast : lastPress w.last (.processKey ev) = some ev := by simp [lastPress, hp]
        rw [hlast]
        exact left_by_last_press env w.logic ev hi (hc ev rfl hp)
    | _ => exact absurd rfl hquiet

theorem follows_of_left (w : Watched) (h : LeftByLast w) (ev : KeyEvent)
    (hr : Recycles w.logic ev) : ∃ p, w.last = some p ∧
      keycodeToInputSlot p.keycode = keycodeToInputSlot ev.keycode ∧
      p.flags &&& keyFlagLongPress ≠ 0 ∧ ev.nowMs-p.nowMs < kMultiTapTimeoutMs := by
  obtain ⟨slot, -, hs, -, -, hopen, hslot, htime⟩ := hr
  obtain ⟨p, hlast, hkey, -, hf, hms⟩ := h hopen
  refine ⟨p, hlast, ?_, hf, ?_⟩
  · rw [hkey, hslot, hs]
  · rw [hms]
    exact htime

theorem press_locks_iff (w : Watched) (hi : Inv w.logic) (c : Call) :
    PressLocks w c ↔ ∀ ev i, c = .processKey ev → ev.pressed = true →
      w.logic.lpCycle.byteIndex = some i → ¬ Recycles w.logic ev →
      (w.logic.apply env c).lpCycle.byteIndex ≠ some i := by
  constructor
  · rintro h ev i rfl hp hb hno
    exact (locks_iff env w.logic hi ev i hb hno).mpr (h ev rfl hp (by simp [hb]) hno)
  · rintro h ev rfl hp hopen hno
    obtain ⟨i, hb⟩ := Option.ne_none_iff_exists'.mp hopen
    exact (locks_iff env w.logic hi ev i hb hno).mp (h ev i rfl hp hb hno)

end Runs

/-- In every run a byte is cycled only behind a long press of its key in time, and
locked by every other press, if and only if the presses in an open cycle that do not
cycle it are ones that lock. -/
theorem cycle_locked_iff (env : Env) (calls : List Call) :
    Along (Watched.step env) (CycleContract env) .start calls ↔
      Along (Watched.step env) PressLocks .start calls := by
  constructor
  · intro h
    apply along_imp_of_invariant (Watched.step env) (CycleContract env) PressLocks
      (fun w => Inv w.logic) _ _ calls .start inv_init h
    · intro w c t hi _ ht
      exact Option.some.inj ht ▸ inv_apply env w.logic hi c
    · intro w c hi hcontract
      exact (press_locks_iff env w hi c).mpr hcontract.locks
  · intro h
    apply along_imp_of_invariant (Watched.step env) PressLocks (CycleContract env)
      (fun w => Inv w.logic ∧ LeftByLast w) _ _ calls .start ⟨inv_init, fun hopen => absurd rfl hopen⟩ h
    · intro w c t hw hlocks ht
      have hnext := left_by_last_step env w c hw.1 hw.2 hlocks
      exact Option.some.inj ht ▸ ⟨inv_apply env w.logic hw.1 c, hnext⟩
    · intro w c hw hlocks
      constructor
      · exact fun ev _ hr => follows_of_left w hw.2 ev hr
      · exact (press_locks_iff env w hw.1 c).mp hlocks

def longKey (nowMs : UInt32) : Call := .processKey ⟨0x01, true, nowMs, keyFlagLongPress⟩

/-- Two long presses of ㄅ's key with `TAB` between them: there is one byte, and its
phoneme is changed after the other key. -/
theorem tab_between :
    (ImeLogic.run bareEnv [longKey 0, press mokyaKeyTab 100]).keySeqLen = 1 ∧
    (ImeLogic.run bareEnv [longKey 0, press mokyaKeyTab 100]).phonemeHint 0 = 0 ∧
    (ImeLogic.run bareEnv [longKey 0, press mokyaKeyTab 100, longKey 200]).keySeqLen = 1 ∧
    (ImeLogic.run bareEnv [longKey 0, press mokyaKeyTab 100, longKey 200]).phonemeHint 0 = 1 ∧
    ¬ Along (Watched.step bareEnv) (CycleContract bareEnv) .start
      [longKey 0, press mokyaKeyTab 100, longKey 200] := by
  have hfirst : (ImeLogic.run bareEnv [longKey 0, press mokyaKeyTab 100]).keySeqLen = 1 ∧
      (ImeLogic.run bareEnv [longKey 0, press mokyaKeyTab 100]).phonemeHint 0 = 0 := by
    decide +kernel
  have hsecond : (ImeLogic.run bareEnv [longKey 0, press mokyaKeyTab 100, longKey 200]).keySeqLen = 1 ∧
      (ImeLogic.run bareEnv [longKey 0, press mokyaKeyTab 100, longKey 200]).phonemeHint 0 = 1 := by
    decide +kernel
  refine ⟨hfirst.1, hfirst.2, hsecond.1, hsecond.2, fun h => ?_⟩
  have hcycles : Recycles (ImeLogic.run bareEnv [longKey 0, press mokyaKeyTab 100])
      ⟨0x01, true, 200, keyFlagLongPress⟩ := by
    refine ⟨0, ?_, rfl, ?_⟩
    · unfold Routed
      decide +kernel
    · unfold Cycles
      decide +kernel
  have hafter := (h.2 _ rfl).2 _ rfl
  obtain ⟨p, hlast, -, hlong, -⟩ := hafter.1.follows _ rfl hcycles
  rw [← Option.some.inj hlast] at hlong
  exact hlong rfl

end MokyaLora.Ime
