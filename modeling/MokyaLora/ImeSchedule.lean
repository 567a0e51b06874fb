import MokyaLora.ImeSettle
import MokyaLora.ImePending

/-!
# Where the ticks stand between the keys
-/

set_option autoImplicit false

namespace MokyaLora.Ime
open Lib.Fields Lib.Memory Lib.Schedule

/-- Equal times that are not in the future; a cycle whose time is over is as good as
one that was ended. -/
def upTo (n : UInt32) : Likeness where
  times a b := a = b ∧ a ≤ n
  past a := a.byteIndex = none ∨ a.lastMs ≤ n ∧ kMultiTapTimeoutMs ≤ n-a.lastMs
  caches a b := a = b

theorem up_to_sound (n : UInt32) : Sound (upTo n) n n where
  now := ⟨rfl, UInt32.le_refl n⟩
  elapsed := by
    rintro a b ⟨rfl, -⟩
    rfl
  ended := fun _ h => .inl h
  late := by
    intro a ha hne
    have hlate := (ha.resolve_left hne).2
    exact ⟨UInt32.not_lt.mpr hlate, UInt32.not_lt.mpr hlate⟩
  lookup := by
    rintro a b rfl keys hints maxResults
    rfl

namespace ImeLogic

def clocks (s : ImeLogic) : Clocks :=
  ⟨s.multitap.lastMs, s.sym1.pressedAtMs, s.lpCycle, s.lru, s.nowMsCache, s.events⟩

end ImeLogic

namespace Alike

variable {n m : UInt32} {s t u : ImeLogic}

theorem cycle_cases (h : Alike (upTo n) s t) : (upTo n).past s.lpCycle ∧ (upTo n).past t.lpCycle ∨
    s.lpCycle = t.lpCycle ∧ s.lpCycle.lastMs ≤ n := by
  rcases h.cycle with hp | ⟨hsame, htime, hle⟩
  · exact .inl hp
  · refine .inr ⟨?_, hle⟩
    rw [hsame, ← htime]

theorem symm (h : Alike (upTo n) s t) : Alike (upTo n) t s where
  same := by
    obtain ⟨k, rfl⟩ := h.same
    exact ⟨s.clocks, rfl⟩
  commits := h.commits.symm
  multitap := by
    obtain ⟨k, rfl⟩ := h.same
    intro hp
    obtain ⟨htime, hle⟩ := h.multitap hp
    exact ⟨htime.symm, htime ▸ hle⟩
  sym1 := by
    obtain ⟨k, rfl⟩ := h.same
    intro hd
    obtain ⟨htime, hle⟩ := h.sym1 hd
    exact ⟨htime.symm, htime ▸ hle⟩
  cycle := by
    rcases h.cycle_cases with ⟨hs, ht⟩ | ⟨hsame, hle⟩
    · exact .inl ⟨ht, hs⟩
    · rw [← hsame]
      exact .inr ⟨rfl, rfl, hle⟩
  lru := Eq.symm h.lru

theorem trans (h : Alike (upTo n) s t) (h' : Alike (upTo n) t u) : Alike (upTo n) s u where
  same := by
    obtain ⟨k, rfl⟩ := h.same
    obtain ⟨k', rfl⟩ := h'.same
    exact ⟨k', rfl⟩
  commits := h'.commits.trans h.commits
  multitap := by
    obtain ⟨k, rfl⟩ := h.same
    intro hp
    obtain ⟨htime, hle⟩ := h.multitap hp
    exact ⟨htime.trans (h'.multitap hp).1, hle⟩
  sym1 := by
    obtain ⟨k, rfl⟩ := h.same
    intro hd
    obtain ⟨htime, hle⟩ := h.sym1 hd
    exact ⟨htime.trans (h'.sym1 hd).1, hle⟩
  cycle := by
    rcases h.cycle_cases with ⟨hs, ht⟩ | ⟨hsame, hle⟩
    · rcases h'.cycle_cases with ⟨-, hu⟩ | ⟨hsame, -⟩
      · exact .inl ⟨hs, hu⟩
      · exact .inl ⟨hs, hsame ▸ ht⟩
    · rw [hsame]
      exact h'.cycle
  lru := Eq.trans h.lru h'.lru

theorem past_mono (a : LpCycleState) (hnm : n ≤ m) (h : (upTo n).past a) : (upTo m).past a := by
  rcases h with h | ⟨hle, hlate⟩
  · exact .inl h
  · exact .inr ⟨UInt32.le_trans hle hnm, UInt32.le_trans hlate (elapsed_mono _ n m hle hnm)⟩

theorem later (hnm : n ≤ m) (h : Alike (upTo n) s t) : Alike (upTo m) s t where
  same := h.same
  commits := h.commits
  multitap := fun hp => (h.multitap hp).imp_right (fun hle => UInt32.le_trans hle hnm)
  sym1 := fun hd => (h.sym1 hd).imp_right (fun hle => UInt32.le_trans hle hnm)
  cycle := by
    rcases h.cycle with ⟨hs, ht⟩ | ⟨hsame, htime, hle⟩
    · exact .inl ⟨past_mono _ hnm hs, past_mono _ hnm ht⟩
    · exact .inr ⟨hsame, htime, UInt32.le_trans hle hnm⟩
  lru := h.lru

variable (env : Env)

theorem log_left {r : Likeness} (e : Event) (he : e.text = none) (h : Alike r s t) :
    Alike r (s.log env e) t := by
  unfold ImeLogic.log
  split
  · constructor
    · obtain ⟨k, hsame⟩ := h.same
      exact ⟨k, hsame⟩
    · rw [h.commits]
      simp [ImeLogic.commits, he]
    · exact h.multitap
    · exact h.sym1
    · exact h.cycle
    · exact h.lru
  · exact h

theorem notify_left {r : Likeness} (h : Alike r s t) : Alike r (s.notifyChanged env) t :=
  h.log_left env _ rfl

theorem settled (h : Alike (upTo n) s t) : Alike (upTo n) (s.settled env n) (t.settled env n) :=
  ((h.expire_multitap env (up_to_sound n)).1.open_picker (up_to_sound n)).1

theorem press (ev : KeyEvent) (h : Alike (upTo ev.nowMs) s t) :
    Alike (upTo ev.nowMs) (s.processKey env ev).1 (t.processKey env ev).1 := by
  refine h.process_key env (up_to_sound ev.nowMs) ev (fun _ _ c p _ => ?_)
  obtain ⟨k, rfl⟩ := h.same
  have hl : s.lru = k.lru := h.lru
  generalize c.word.take (kCandidateMaxBytes-1) = word
  by_cases hc : s.mode = .smartZh ∧ 0 < p ∧ p ≤ s.keySeqLen
  · have hs : (s.stampNow ev.nowMs).mode = .smartZh ∧ 0 < p ∧
      p ≤ (s.stampNow ev.nowMs).keySeqLen := hc
    have ht : ((s.withClocks k).stampNow ev.nowMs).mode = .smartZh ∧ 0 < p ∧
      p ≤ ((s.withClocks k).stampNow ev.nowMs).keySeqLen := hc
    rw [ImeLogic.learn, ImeLogic.learn, if_pos hs, if_pos ht]
    show s.lru.upsert _ _ _ _ _ = k.lru.upsert _ _ _ _ _
    rw [hl]
    rfl
  · have hs : ¬ ((s.stampNow ev.nowMs).mode = .smartZh ∧ 0 < p ∧
      p ≤ (s.stampNow ev.nowMs).keySeqLen) := hc
    have ht : ¬ (((s.withClocks k).stampNow ev.nowMs).mode = .smartZh ∧ 0 < p ∧
      p ≤ ((s.withClocks k).stampNow ev.nowMs).keySeqLen) := hc
    rw [ImeLogic.learn, ImeLogic.learn, if_neg hs, if_neg ht]
    exact hl

theorem held (h : Alike (upTo n) s s) : s.sym1.down = true → s.sym1.pressedAtMs ≤ n :=
  fun hd => (h.sym1 hd).2

theorem resettled (h : Alike (upTo n) s s) (hnm : n ≤ m) :
    (s.settled env n).settled env m = s.settled env m :=
  settled_settled env s n m hnm (fun hp => (h.multitap hp).2) h.held

theorem lock_left (h : Alike (upTo n) s t) : Alike (upTo n) (s.lockCycle n) t := by
  rw [ImeLogic.lockCycle]
  split
  · rename_i hc
    have hpast : (upTo n).past s.lpCycle ∧ (upTo n).past t.lpCycle := by
      rcases h.cycle_cases with hp | ⟨hsame, hle⟩
      · exact hp
      · have hs : (upTo n).past s.lpCycle := .inr ⟨hle, hc.2⟩
        exact ⟨hs, hsame ▸ hs⟩
    constructor
    · exact h.same
    · exact h.commits
    · exact h.multitap
    · exact h.sym1
    · exact .inl ⟨.inl rfl, hpast.2⟩
    · exact h.lru
  · exact h

theorem stamp_left (h : Alike (upTo n) s t) (nowMs : UInt32) : Alike (upTo n) (s.stampNow nowMs) t where
  same := h.same
  commits := h.commits
  multitap := h.multitap
  sym1 := h.sym1
  cycle := h.cycle
  lru := h.lru

theorem tick_settled (h : Alike (upTo n) s s) :
    Alike (upTo n) (s.tick env n).1 (s.settled env n) := by
  have hlocked := ((h.stamp_left n).settled env).lock_left
  rw [tick_eq]
  dsimp only
  split
  · exact hlocked.notify_left env
  · exact hlocked

end Alike

def KeyEvent.Live (ev : KeyEvent) : Prop :=
  ¬ (ev.keycode = mokyaKeyBack ∨ ev.keycode = mokyaKeyNone ∨ mokyaKeyLimit ≤ ev.keycode) ∧
    (ev.pressed = true ↔ ev.keycode ≠ mokyaKeySym1)

instance (ev : KeyEvent) : Decidable ev.Live := by
  unfold KeyEvent.Live
  infer_instance

/-- The key does to a pending label something else than to commit it first, or puts
another commit before it. -/
def ActsOnLabel (s : ImeLogic) (ev : KeyEvent) : Prop :=
  ev.Live ∧ ev.keycode ≠ mokyaKeySym1 ∧
    if s.symPickerOpen then ev.keycode = mokyaKeyOk
    else ev.keycode = mokyaKeyDel ∨ ev.keycode = mokyaKeyOk ∨
      ev.keycode = mokyaKeyMode ∧ s.hasCandidates = true ∨ ev.keycode = s.multitap.keycode

/-- The key acts where a timeout has passed that no tick has noticed. -/
def Overdue (s : ImeLogic) (ev : KeyEvent) : Prop :=
  s.LabelDue ev.nowMs ∧ ActsOnLabel s ev ∨ s.panel.HoldDue ev.nowMs ∧ ev.Live

def Settles (env : Env) (n : UInt32) (s t : ImeLogic) : Prop :=
  Alike (upTo n) (s.settled env n) (t.settled env n)

instance (s : ImeLogic) (ev : KeyEvent) : Decidable (ActsOnLabel s ev) := by
  unfold ActsOnLabel
  infer_instance

instance (s : ImeLogic) (ev : KeyEvent) : Decidable (Overdue s ev) := by
  unfold Overdue
  infer_instance

section Due

variable (env : Env) {n : UInt32} {s : ImeLogic}

theorem panel_self (h : Alike (upTo n) s s) (q : Panel)
    (hq : q.sym1.down = true → q.sym1.pressedAtMs ≤ n) :
    Alike (upTo n) (s.withPanel q) (s.withPanel q) where
  same := ⟨(s.withPanel q).clocks, rfl⟩
  commits := rfl
  multitap := h.multitap
  sym1 := fun hd => ⟨rfl, hq hd⟩
  cycle := h.cycle
  lru := h.lru

variable (hdue : s.LabelDue n)

include hdue

/-- Handlers that only set the panel act alike before and after the commit. -/
theorem panels_settled (q : Panel) {x y : ImeLogic} (hx : Alike (upTo n) x (s.withPanel q))
    (hy : Alike (upTo n) y ((s.multitapCommit env).withPanel q)) :
    Settles env n x y := by
  have hs := hx.settled env
  have hc := hy.settled env
  rw [settled_panel, if_pos hdue] at hs
  rw [settled_commit_panel] at hc
  exact hs.trans hc.symm

variable (h : Alike (upTo n) s s) (c : ImeLogic) (hc : s.multitapCommit env = s.withLabel c)

include h hc

theorem quiet_due (q : Panel) (hq : q.sym1.down = true → q.sym1.pressedAtMs ≤ n) :
    Settles env n (s.withPanel q) ((s.withLabel c).withPanel q) := by
  rw [← hc]
  exact panels_settled env hdue q (panel_self h q hq) (panel_self (h.multitap_commit env) q hq)

theorem logged_due (q : Panel) (hq : q.sym1.down = true → q.sym1.pressedAtMs ≤ n) (e : Event)
    (he : e.text = none) :
    Settles env n ((s.withPanel q).log env e) (((s.withLabel c).withPanel q).log env e) := by
  rw [← hc]
  exact panels_settled env hdue q ((panel_self h q hq).log_left env e he)
    ((panel_self (h.multitap_commit env) q hq).log_left env e he)

omit hdue h in
theorem commit_twice (q : Panel) :
    ((s.withLabel c).withPanel q).multitapCommit env = (s.withPanel q).multitapCommit env := by
  rw [← hc, multitap_commit_panel, multitap_commit_panel,
    multitap_commit_idle env _ (commit_idle env s)]

theorem dpad_due (dir : NavDir) :
    Settles env n (s.handleDpad env dir).1 ((s.withLabel c).handleDpad env dir).1 := by
  refine branch_reply Iff.rfl (fun _ => ?_)
    (fun _ => logged_due env hdue h c hc s.panel h.held _ rfl)
  cases dir with
  | left => exact logged_due env hdue h c hc { s.panel with selected :=
      (s.selected+s.candidates.length-1) % s.candidates.length } h.held _ rfl
  | right => exact logged_due env hdue h c hc { s.panel with selected :=
      (s.selected+1) % s.candidates.length } h.held _ rfl
  | up => exact quiet_due env hdue h c hc s.panel h.held
  | down => exact quiet_due env hdue h c hc s.panel h.held

theorem picker_due (kc : Keycode) (hkc : kc ≠ mokyaKeyOk) :
    Settles env n (s.handlePicker env kc).1 ((s.withLabel c).handlePicker env kc).1 := by
  rw [ImeLogic.handlePicker, ImeLogic.handlePicker]
  cases ImeLogic.navDir kc with
  | some dir => exact logged_due env hdue h c hc { s.panel with
      symPickerSel := ImeLogic.pickerMove s.symPickerSel dir } h.held _ rfl
  | none =>
    refine branch_reply Iff.rfl (fun hok => absurd hok hkc) (fun _ => ?_)
    exact logged_due env hdue h c hc { s.panel with symPickerOpen := false, symPickerSel := 0 }
      h.held _ rfl

theorem release_due :
    Settles env n (s.handleSym1 env false n).1 ((s.withLabel c).handleSym1 env false n).1 := by
  refine branch_reply Iff.rfl (fun hp => absurd hp Bool.false_ne_true) (fun _ => ?_)
  refine branch_reply Iff.rfl (fun _ => quiet_due env hdue h c hc s.panel h.held) (fun _ => ?_)
  refine branch_reply Iff.rfl (fun _ => ?_)
    (fun _ => branch_reply Iff.rfl (fun _ => ?_) (fun _ => ?_))
  · exact quiet_due env hdue h c hc
      { s.panel with sym1 := ⟨false, false, s.sym1.pressedAtMs⟩ } Bool.noConfusion
  · exact logged_due env hdue h c hc { s.panel.released with
      symPickerOpen := false
      symPickerSel := 0 } Bool.noConfusion .compositionChanged rfl
  · -- the short tap commits the label itself, so nothing is left for the tick
    have hself := (panel_self h s.panel.released Bool.noConfusion).multitap_commit env
    have hshort (str : Bytes) : Settles env n
        ((((s.withPanel s.panel.released).multitapCommit env).emitCommit env .literal
          str).notifyChanged env)
        (((((s.withLabel c).withPanel s.panel.released).multitapCommit env).emitCommit env .literal
          str).notifyChanged env) := by
      rw [commit_twice env c hc]
      exact ((hself.emit_commit env .literal str).notify_changed env).settled env
    exact hshort _

omit h in
theorem mode_due (hcand : ¬ s.hasCandidates = true) :
    (s.withLabel c).cycleMode env = s.cycleMode env := by
  have hidle : ¬ (s.withLabel c).multitapPending := hc ▸ commit_idle env s
  have hcand' : ¬ (s.withLabel c).hasCandidates = true := hcand
  rw [ImeLogic.cycleMode, ImeLogic.cycleMode, if_pos hdue.1, if_neg hidle, if_neg hcand', hc]

omit hdue h in
theorem sym2_due (hk : ¬ s.multitap.keycode = mokyaKeySym2) (nowMs : UInt32) :
    (s.withLabel c).handleSym2 env nowMs = s.handleSym2 env nowMs := by
  have hidle : ¬ (s.withLabel c).multitapPending := hc ▸ commit_idle env s
  have hk' : ¬ (s.withLabel c).multitap.keycode = mokyaKeySym2 := by
    intro heq
    rw [ImeLogic.multitapPending, not_not, heq] at hidle
    exact absurd hidle (by decide)
  have hcommit : (s.withLabel c).multitapCommit env = s.multitapCommit env := by
    rw [multitap_commit_idle env _ hidle, hc]
  rw [ImeLogic.handleSym2, ImeLogic.handleSym2, if_neg hk, if_neg hk', hcommit]
  rfl

omit h in
theorem input_due (ev : KeyEvent) (hk : ¬ ev.keycode = s.multitap.keycode) :
    (s.withLabel c).handleInput env ev = s.handleInput env ev := by
  have hidle : ¬ (s.withLabel c).multitapPending := hc ▸ commit_idle env s
  have hother : s.multitapPending ∧ s.multitap.keycode ≠ ev.keycode :=
    ⟨hdue.1, fun heq => hk heq.symm⟩
  rw [ImeLogic.handleInput, ImeLogic.handleInput, if_neg (fun hp => hidle hp.1), if_pos hother, hc]

theorem dispatch_due (ev : KeyEvent) (hn : ev.nowMs = n) (hlive : ev.Live)
    (hacts : ¬ ActsOnLabel s ev) :
    Settles env n (s.dispatchKey env ev).1 ((s.withLabel c).dispatchKey env ev).1 := by
  subst hn
  have hr := up_to_sound ev.nowMs
  obtain ⟨hkey, hpress⟩ := hlive
  refine branch_reply Iff.rfl (fun hk => absurd hk hkey) (fun _ => ?_)
  refine branch_reply Iff.rfl (fun hsym1 => ?_) (fun hsym1 => ?_)
  · have hreleased : ev.pressed = false := by
      rw [← Bool.not_eq_true]
      exact fun hp => hpress.mp hp hsym1
    rw [hreleased]
    exact release_due env hdue h c hc
  refine branch_reply Iff.rfl (fun hp => absurd (hpress.mpr hsym1) hp) (fun _ => ?_)
  refine branch_reply Iff.rfl (fun hopen => ?_) (fun hopen => ?_)
  · refine picker_due env hdue h c hc ev.keycode (fun hok => hacts ⟨⟨hkey, hpress⟩, hsym1, ?_⟩)
    rwa [if_pos hopen]
  have hother : ¬ (ev.keycode = mokyaKeyDel ∨ ev.keycode = mokyaKeyOk ∨
      ev.keycode = mokyaKeyMode ∧ s.hasCandidates = true ∨ ev.keycode = s.multitap.keycode) := by
    intro hk
    exact hacts ⟨⟨hkey, hpress⟩, hsym1, by rwa [if_neg hopen]⟩
  simp only [not_or] at hother
  obtain ⟨hdel, hok, hmode, hlabel⟩ := hother
  refine branch_reply Iff.rfl (fun hm => ?_) (fun _ => ?_)
  · rw [mode_due env hdue c hc (fun hcand => hmode ⟨hm, hcand⟩)]
    exact (h.cycle_mode env hr (fun _ hidle => absurd hdue.1 hidle)).settled env
  refine branch_reply Iff.rfl (fun hd => absurd hd hdel) (fun _ => ?_)
  cases ImeLogic.navDir ev.keycode with
  | some dir => exact dpad_due env hdue h c hc dir
  | none =>
    refine branch_reply Iff.rfl (fun ho => absurd ho hok) (fun _ => ?_)
    refine branch_reply Iff.rfl (fun h2 => ?_) (fun _ => ?_)
    · rw [sym2_due env c hc (fun hk => hlabel (h2.trans hk.symm))]
      exact (h.handle_sym2 env hr).settled env
    · rw [input_due env hdue c hc ev hlabel]
      exact (h.handle_input env hr ev).settled env

end Due

section Key

variable (env : Env) {s : ImeLogic} (ev : KeyEvent)

theorem press_settles {n : UInt32} (h : Alike (upTo n) s s) :
    Settles env n { s with sym1 := ⟨true, false, n⟩ }
      { (if s.LabelDue n then s.multitapCommit env else s).withPanel s.panel with
        sym1 := ⟨true, false, n⟩ } := by
  have hself := panel_self h { s.panel with sym1 := ⟨true, false, n⟩ } (fun _ => UInt32.le_refl n)
  by_cases hdue : s.LabelDue n
  · rw [if_pos hdue]
    exact panels_settled env hdue { s.panel with sym1 := ⟨true, false, n⟩ } hself
      (panel_self (h.multitap_commit env) { s.panel with sym1 := ⟨true, false, n⟩ }
        (fun _ => UInt32.le_refl n))
  · rw [if_neg hdue]
    exact hself.settled env

theorem dispatch_quiet (h : Alike (upTo ev.nowMs) s s) (hlive : ¬ ev.Live) :
    Settles env ev.nowMs (s.dispatchKey env ev).1
      ((s.settled env ev.nowMs).dispatchKey env ev).1 := by
  have hidle : Settles env ev.nowMs s (s.settled env ev.nowMs) := by
    rw [Settles, h.resettled env (UInt32.le_refl _)]
    exact h.settled env
  refine branch_reply Iff.rfl (fun _ => hidle) (fun hkey => ?_)
  refine branch_reply Iff.rfl (fun hsym1 => ?_) (fun hsym1 => ?_)
  · have hpressed : ev.pressed = true := by
      by_contra hp
      exact hlive ⟨hkey, iff_of_false hp (not_not.mpr hsym1)⟩
    have hdown : s.sym1.down = true ↔ (s.settled env ev.nowMs).sym1.down = true := by
      rw [settled_eq]
      show s.panel.sym1.down = true ↔ (s.panel.opened ev.nowMs).sym1.down = true
      unfold Panel.opened
      split <;> rfl
    refine branch_reply Iff.rfl (fun _ => ?_) (fun hp => absurd hpressed hp)
    refine branch_reply hdown (fun _ => hidle) (fun hup => ?_)
    have hopened : s.panel.opened ev.nowMs = s.panel := if_neg (fun hd => hup hd.1)
    rw [settled_eq, hopened]
    exact press_settles env h
  · refine branch_reply Iff.rfl (fun _ => hidle) (fun hp => ?_)
    exact absurd ⟨hkey, iff_of_true (not_not.mp hp) hsym1⟩ hlive

/-- Unless it acts on an overdue timeout, a key leads to the same state, once settled,
whether a tick comes right before it or not. -/
theorem settled_key (h : Alike (upTo ev.nowMs) s s) (hno : ¬ Overdue s ev) :
    Settles env ev.nowMs (s.processKey env ev).1
      ((s.settled env ev.nowMs).processKey env ev).1 := by
  have hself : Alike (upTo ev.nowMs) (s.stampNow ev.nowMs) (s.stampNow ev.nowMs) := h.stamp_now
  rw [ImeLogic.processKey, ImeLogic.processKey, ← settled_stamp]
  by_cases hlive : ev.Live
  · have hhold : ¬ s.panel.HoldDue ev.nowMs := fun hd => hno (.inr ⟨hd, hlive⟩)
    have hopened : Panel.opened (s.stampNow ev.nowMs).panel ev.nowMs =
        (s.stampNow ev.nowMs).panel := if_neg hhold
    rw [settled_eq, hopened]
    by_cases hdue : s.LabelDue ev.nowMs
    · have hdue' : (s.stampNow ev.nowMs).LabelDue ev.nowMs := hdue
      have hacts : ¬ ActsOnLabel (s.stampNow ev.nowMs) ev := fun ha => hno (.inl ⟨hdue, ha⟩)
      have hpanel : ((s.stampNow ev.nowMs).multitapCommit env).withPanel
          (s.stampNow ev.nowMs).panel = (s.stampNow ev.nowMs).withLabel
            ((s.stampNow ev.nowMs).multitapCommit env) := by
        rw [← panel_of_commit env]
        exact commit_within env _
      rw [if_pos hdue', hpanel]
      exact dispatch_due env hdue' hself _ (commit_within env _) ev rfl hlive hacts
    · have hdue' : ¬ (s.stampNow ev.nowMs).LabelDue ev.nowMs := hdue
      rw [if_neg hdue']
      exact (h.press env ev).settled env
  · exact dispatch_quiet env ev hself hlive

end Key

def eager (env : Env) (u : ImeLogic) (ev : KeyEvent) : ImeLogic :=
  ((u.settled env ev.nowMs).processKey env ev).1

structure Follows (env : Env) (n : UInt32) (s u : ImeLogic) : Prop where
  own : Alike (upTo n) s s
  eager : Alike (upTo n) u u
  settled : Settles env n s u

section Runs

variable {env : Env} {n m : UInt32} {s u : ImeLogic}

theorem Follows.later (hnm : n ≤ m) (h : Follows env n s u) : Follows env m s u where
  own := h.own.later hnm
  eager := h.eager.later hnm
  settled := by
    have hs := (Alike.later hnm h.settled).settled env
    rwa [h.own.resettled env hnm, h.eager.resettled env hnm] at hs

theorem Follows.tick (h : Follows env n s u) : Follows env n (s.tick env n).1 u where
  own := h.own.tick env (up_to_sound n)
  eager := h.eager
  settled := by
    have hs := (h.own.tick_settled env).settled env
    rw [h.own.resettled env (UInt32.le_refl n)] at hs
    exact hs.trans h.settled

theorem Follows.key (ev : KeyEvent) (h : Follows env ev.nowMs s u) (hno : ¬ Overdue s ev) :
    Follows env ev.nowMs (s.processKey env ev).1 (Ime.eager env u ev) where
  own := h.own.press env ev
  eager := (h.eager.settled env).press env ev
  settled := (settled_key env ev h.own hno).trans ((h.settled.press env ev).settled env)

end Runs

namespace Timed

def event : Timed → Option KeyEvent
  | key ev => some ev
  | tick _ => none

end Timed

def NothingOverdue (s : ImeLogic) : Call → Prop
  | .processKey ev => ¬ Overdue s ev
  | _ => True

instance (s : ImeLogic) : (c : Call) → Decidable (NothingOverdue s c)
  | .processKey ev => inferInstanceAs (Decidable (¬ Overdue s ev))
  | .tick _ | .abort | .setSelected _ | .setTextContext _ | .loadLru _ => isTrue trivial

theorem calls_follow (env : Env) (calls : List Timed) (n : UInt32) (s u : ImeLogic)
    (h : Follows env n s u) (hn : ∀ a ∈ calls, n ≤ a.nowMs)
    (hordered : (calls.map Timed.nowMs).Pairwise (fun x y => x ≤ y))
    (hno : Along (callStep env) NothingOverdue s (calls.map Timed.call)) (m : UInt32)
    (hnm : n ≤ m) (hm : ∀ a ∈ calls, a.nowMs ≤ m) :
    Follows env m ((calls.map Timed.call).foldl (fun s a => s.apply env a) s)
      ((calls.filterMap Timed.event).foldl (eager env) u) := by
  induction calls generalizing n s u with
  | nil => exact h.later hnm
  | cons call calls ih =>
    rw [List.map_cons, List.pairwise_cons] at hordered
    have hlater : ∀ a ∈ calls, call.nowMs ≤ a.nowMs :=
      fun a ha => hordered.1 _ (List.mem_map_of_mem ha)
    have hm' : ∀ a ∈ calls, a.nowMs ≤ m := fun a ha => hm a (List.mem_cons_of_mem _ ha)
    have hcall : call.nowMs ≤ m := hm call (List.mem_cons_self ..)
    have hnow := h.later (hn call (List.mem_cons_self ..))
    cases call with
    | key ev =>
      exact ih ev.nowMs _ _ (hnow.key ev hno.1) hlater hordered.2 (hno.2 _ rfl) hcall hm'
    | tick nowMs => exact ih nowMs _ _ hnow.tick hlater hordered.2 (hno.2 _ rfl) hcall hm'

/-- Calls with the given keys, the times in order, and a last tick when every timeout
is over. -/
structure Schedule (evs : List KeyEvent) where
  calls : List Timed
  lastMs : UInt32
  keys : calls.filterMap Timed.event = evs
  ordered : (calls.map Timed.nowMs).Pairwise (fun x y => x ≤ y)
  last : ∀ a ∈ calls, a.nowMs ≤ lastMs
  expired : ∀ ev ∈ evs, kMultiTapTimeoutMs ≤ lastMs-ev.nowMs

namespace Schedule

variable {evs : List KeyEvent} (σ : Schedule evs)

def run (env : Env) : ImeLogic :=
  ((ImeLogic.run env (σ.calls.map Timed.call)).tick env σ.lastMs).1

def Noticed (env : Env) : Prop :=
  Along (callStep env) NothingOverdue .init (σ.calls.map Timed.call)

instance (env : Env) : Decidable (σ.Noticed env) := by
  unfold Noticed
  infer_instance

end Schedule

theorem init_timed (n : UInt32) : Alike (upTo n) .init .init where
  same := ⟨ImeLogic.init.clocks, rfl⟩
  commits := rfl
  multitap := fun hp => absurd rfl hp
  sym1 := Bool.noConfusion
  cycle := .inl ⟨.inl rfl, .inl rfl⟩
  lru := rfl

theorem eager_expired (env : Env) (evs : List KeyEvent) (n m : UInt32) (u : ImeLogic)
    (h : Alike (upTo n) u u) (hn : ∀ ev ∈ evs, n ≤ ev.nowMs)
    (hordered : evs.Pairwise (fun a b => a.nowMs ≤ b.nowMs))
    (hm : ∀ ev ∈ evs, ev.nowMs ≤ m ∧ kMultiTapTimeoutMs ≤ m-ev.nowMs)
    (hu : u.multitapPending → kMultiTapTimeoutMs ≤ m-u.multitap.lastMs) :
    (evs.foldl (eager env) u).multitapPending →
      kMultiTapTimeoutMs ≤ m-(evs.foldl (eager env) u).multitap.lastMs := by
  induction evs generalizing n u with
  | nil => exact hu
  | cons ev evs ih =>
    rw [List.pairwise_cons] at hordered
    obtain ⟨hle, hlate⟩ := hm ev (List.mem_cons_self ..)
    have hnow := ((h.later (hn ev (List.mem_cons_self ..))).settled env).press env ev
    apply ih ev.nowMs _ hnow hordered.1 hordered.2 (fun e he => hm e (List.mem_cons_of_mem _ he))
    intro hp
    exact UInt32.le_trans hlate (elapsed_older _ _ m (hnow.multitap hp).2 hle)

theorem settled_commits (env : Env) (u : ImeLogic) (m : UInt32)
    (h : u.multitapPending → kMultiTapTimeoutMs ≤ m-u.multitap.lastMs) :
    (u.settled env m).commits = (u.multitapCommit env).commits := by
  rw [settled_eq]
  by_cases hp : u.multitapPending
  · rw [if_pos ⟨hp, h hp⟩]
    rfl
  · rw [if_neg (fun hdue => hp hdue.1), multitap_commit_idle env u hp]
    rfl

theorem schedule_eager (env : Env) {evs : List KeyEvent} (σ : Schedule evs)
    (hσ : σ.Noticed env) :
    (σ.run env).commits = ((evs.foldl (eager env) .init).multitapCommit env).commits := by
  have hlast : ∀ ev ∈ evs, ev.nowMs ≤ σ.lastMs := by
    intro ev hev
    rw [← σ.keys] at hev
    obtain ⟨a, ha, hkey⟩ := List.mem_filterMap.mp hev
    cases a with
    | key e =>
      obtain rfl := Option.some.inj hkey
      exact σ.last _ ha
    | tick nowMs => cases hkey
  have hordered : evs.Pairwise (fun a b => a.nowMs ≤ b.nowMs) := by
    rw [← σ.keys, List.pairwise_filterMap]
    refine (List.pairwise_map.mp σ.ordered).imp ?_
    intro a b hab e he f hf
    cases a with
    | tick nowMs => cases he
    | key ev =>
      cases b with
      | tick nowMs => cases hf
      | key ev' =>
        obtain rfl := Option.some.inj he
        obtain rfl := Option.some.inj hf
        exact hab
  have hzero : ∀ x : UInt32, (0 : UInt32) ≤ x := fun x => UInt32.le_iff_toNat_le.mpr (Nat.zero_le _)
  have hinit : Follows env 0 .init .init :=
    ⟨init_timed 0, init_timed 0, (init_timed 0).settled env⟩
  have hrun := calls_follow env σ.calls 0 .init .init hinit (fun a _ => hzero _) σ.ordered hσ
    σ.lastMs (hzero _) σ.last
  rw [σ.keys] at hrun
  have hexpired := eager_expired env evs 0 σ.lastMs .init (init_timed 0) (fun _ _ => hzero _)
    hordered (fun ev hev => ⟨hlast ev hev, σ.expired ev hev⟩) (fun hp => absurd rfl hp)
  rw [← settled_commits env _ σ.lastMs hexpired]
  exact ((hrun.own.tick_settled env).commits.symm).trans hrun.settled.commits.symm

/-- Two placements of the ticks give the listener the same strings to commit, where no
key acts on a timeout that has passed unnoticed. -/
theorem schedule_independent (env : Env) (evs : List KeyEvent) (σ τ : Schedule evs)
    (hσ : σ.Noticed env) (hτ : τ.Noticed env) : (σ.run env).commits = (τ.run env).commits := by
  rw [schedule_eager env σ hσ, schedule_eager env τ hτ]

def pressed (kc : Keycode) (nowMs : UInt32) : KeyEvent := ⟨kc, true, nowMs, 0⟩

def asThenL : List KeyEvent :=
  [pressed mokyaKeyMode 0, pressed mokyaKeyMode 1, pressed 0x0D 100, pressed 0x0D 500,
    pressed 0x11 2000]

/-- No tick between the keys: `L` finds the label of `A` overdue. -/
def asThenLBare : Schedule asThenL where
  calls := asThenL.map Timed.key
  lastMs := 3000
  keys := rfl
  ordered := by decide
  last := by decide
  expired := by decide

def asThenLTicked : Schedule asThenL where
  calls := (asThenL.take 4).map Timed.key++[.tick 700, .tick 1400, .key (pressed 0x11 2000)]
  lastMs := 2800
  keys := rfl
  ordered := by decide
  last := by decide
  expired := by decide

theorem as_then_l : (asThenLBare.run bareEnv).commits = (asThenLTicked.run bareEnv).commits :=
  schedule_independent bareEnv asThenL asThenLBare asThenLTicked (by decide +kernel)
    (by decide +kernel)

def twoAs : List KeyEvent :=
  [pressed mokyaKeyMode 0, pressed mokyaKeyMode 1, pressed 0x0D 100, pressed 0x0D 2000]

def twoAsBare : Schedule twoAs where
  calls := twoAs.map Timed.key
  lastMs := 3000
  keys := rfl
  ordered := by decide
  last := by decide
  expired := by decide

def twoAsTicked : Schedule twoAs where
  calls := (twoAs.take 3).map Timed.key++[.tick 1000, .key (pressed 0x0D 2000)]
  lastMs := 3000
  keys := rfl
  ordered := by decide
  last := by decide
  expired := by decide

/-- The second press cycles the label that a tick would have committed. -/
theorem two_as_differ : (twoAsTicked.run bareEnv).commits = [text ['a'], text ['a']] ∧
    (twoAsBare.run bareEnv).commits = [text ['s']] ∧
    (twoAsBare.run bareEnv).commits ≠ (twoAsTicked.run bareEnv).commits := by
  refine ⟨?_, ?_, ?_⟩ <;> decide +kernel

end MokyaLora.Ime
