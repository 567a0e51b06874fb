import MokyaLora.ImeAlike

/-!
# What a tick would do

A key finds the state as the last tick left it. The state settled at a time is the
one that a tick at that time would leave, apart from the phoneme cycle: a label whose
time is over is committed, and the picker is open when `SYM1` was held long enough.
-/

set_option autoImplicit false

namespace MokyaLora.Ime
open Lib.Fields Lib.Memory

theorem elapsed_toNat (a n : UInt32) (h : a ≤ n) : (n-a).toNat = n.toNat-a.toNat :=
  UInt32.toNat_sub_of_le n a h

theorem elapsed_mono (a n m : UInt32) (han : a ≤ n) (hnm : n ≤ m) : n-a ≤ m-a := by
  rw [UInt32.le_iff_toNat_le, elapsed_toNat a n han, elapsed_toNat a m (UInt32.le_trans han hnm)]
  rw [UInt32.le_iff_toNat_le] at hnm
  exact Nat.sub_le_sub_right hnm _

theorem elapsed_older (a b n : UInt32) (hab : a ≤ b) (hbn : b ≤ n) : n-b ≤ n-a := by
  rw [UInt32.le_iff_toNat_le, elapsed_toNat b n hbn, elapsed_toNat a n (UInt32.le_trans hab hbn)]
  rw [UInt32.le_iff_toNat_le] at hab
  exact Nat.sub_le_sub_left hab _

/-- The members that neither the multi-tap nor its commit reads. -/
structure Panel where
  selected : ℕ
  symPickerOpen : Bool
  symPickerSel : ℕ
  sym1 : Sym1State
  nowMs : UInt32

namespace ImeLogic

variable (env : Env) (s : ImeLogic) (nowMs : UInt32)

def panel : Panel := ⟨s.selected, s.symPickerOpen, s.symPickerSel, s.sym1, s.nowMsCache⟩

def withPanel (p : Panel) : ImeLogic :=
  { s with
    selected := p.selected
    symPickerOpen := p.symPickerOpen
    symPickerSel := p.symPickerSel
    sym1 := p.sym1
    nowMsCache := p.nowMs }

def withLabel (c : ImeLogic) : ImeLogic :=
  { s with
    multitap := c.multitap
    display := c.display
    pendingStyle := c.pendingStyle
    matchedPrefixBytes := c.matchedPrefixBytes
    enCapitalizeNext := c.enCapitalizeNext
    enLastEndedWithSpace := c.enLastEndedWithSpace
    events := c.events }

def said : ImeLogic :=
  if s.display = [] then s
  else (s.didCommit s.display).log env
    (.commit (.multitap s.multitap.keycode s.multitap.slotIdx s.mode) s.display)

def LabelDue : Prop :=
  s.multitapPending ∧ kMultiTapTimeoutMs ≤ nowMs-s.multitap.lastMs

instance : Decidable (s.LabelDue nowMs) := by
  unfold LabelDue
  infer_instance

def settled : ImeLogic := ((s.expireMultitap env nowMs).1.openPicker nowMs).1

end ImeLogic

def Panel.released (p : Panel) : Panel := { p with sym1 := { p.sym1 with down := false } }

def Panel.HoldDue (p : Panel) (nowMs : UInt32) : Prop :=
  p.sym1.down = true ∧ ¬ p.sym1.longFired = true ∧ kLongPressMs ≤ nowMs-p.sym1.pressedAtMs

instance (p : Panel) (nowMs : UInt32) : Decidable (p.HoldDue nowMs) := by
  unfold Panel.HoldDue
  infer_instance

def Panel.opened (p : Panel) (nowMs : UInt32) : Panel :=
  if p.HoldDue nowMs then
    { p with
      sym1 := { p.sym1 with longFired := true }
      symPickerOpen := true
      symPickerSel := 0 }
  else p

section Settle

variable (env : Env) (s : ImeLogic) (p : Panel) (n m : UInt32)

theorem log_panel (e : Event) : (s.withPanel p).log env e = (s.log env e).withPanel p := by
  unfold ImeLogic.log
  split <;> rfl

theorem did_commit_panel (str : Bytes) :
    (s.withPanel p).didCommit str = (s.didCommit str).withPanel p := by
  unfold ImeLogic.didCommit
  split
  · rfl
  · dsimp only
    split <;> rfl

theorem emit_panel (site : CommitSite) (str : Bytes) :
    (s.withPanel p).emitCommit env site str = (s.emitCommit env site str).withPanel p := by
  rw [ImeLogic.emitCommit, ImeLogic.emitCommit]
  by_cases h : str = []
  · rw [if_pos h, if_pos h]
  · rw [if_neg h, if_neg h, did_commit_panel, log_panel]

theorem said_panel : (s.withPanel p).said env = (s.said env).withPanel p := by
  rw [ImeLogic.said, ImeLogic.said]
  by_cases hd : s.display = []
  · have hd' : (s.withPanel p).display = [] := hd
    rw [if_pos hd, if_pos hd']
  · have hd' : ¬ (s.withPanel p).display = [] := hd
    rw [if_neg hd, if_neg hd', ← log_panel, ← did_commit_panel]
    rfl

theorem said_mode : (s.said env).mode = s.mode := by
  unfold ImeLogic.said
  split
  · rfl
  · exact congrArg (fun f => f.1.1) ((log_face env _ _).1.trans (did_commit_face s s.display).1)

theorem multitap_commit_eq (hp : s.multitapPending) : s.multitapCommit env =
    if s.multitap.keycode = mokyaKeySym2 ∧ s.mode = .smartEn then
      (s.said env).multitapClear.emitCommit env .literal [space]
    else (s.said env).multitapClear := by
  have hmode : (s.said env).multitapClear.mode = s.mode := said_mode env s
  rw [ImeLogic.multitapCommit, if_neg (not_not.mpr hp)]
  show (if s.multitap.keycode = mokyaKeySym2 ∧ (s.said env).multitapClear.mode = .smartEn then
    (s.said env).multitapClear.emitCommit env .literal [space] else (s.said env).multitapClear) = _
  rw [hmode]

theorem multitap_commit_panel :
    (s.withPanel p).multitapCommit env = (s.multitapCommit env).withPanel p := by
  by_cases hp : s.multitapPending
  · have hp' : (s.withPanel p).multitapPending := hp
    have hclear : ((s.withPanel p).said env).multitapClear =
        (s.said env).multitapClear.withPanel p := by
      rw [said_panel]
      rfl
    rw [multitap_commit_eq env s hp, multitap_commit_eq env _ hp', hclear]
    by_cases hc : s.multitap.keycode = mokyaKeySym2 ∧ s.mode = .smartEn
    · have hc' : (s.withPanel p).multitap.keycode = mokyaKeySym2 ∧
        (s.withPanel p).mode = .smartEn := hc
      rw [if_pos hc, if_pos hc', emit_panel]
    · have hc' : ¬ ((s.withPanel p).multitap.keycode = mokyaKeySym2 ∧
        (s.withPanel p).mode = .smartEn) := hc
      rw [if_neg hc, if_neg hc']
  · have hp' : ¬ (s.withPanel p).multitapPending := hp
    rw [multitap_commit_idle env s hp, multitap_commit_idle env _ hp']

theorem within_then {s t u : ImeLogic} (h : t = s.withLabel t) (h' : u = t.withLabel u) :
    u = s.withLabel u := by
  rw [h', h]
  rfl

theorem log_within (e : Event) : s.log env e = s.withLabel (s.log env e) := by
  unfold ImeLogic.log
  split <;> rfl

theorem did_commit_within (str : Bytes) : s.didCommit str = s.withLabel (s.didCommit str) := by
  unfold ImeLogic.didCommit
  split
  · rfl
  · dsimp only
    split <;> rfl

theorem said_within : s.said env = s.withLabel (s.said env) := by
  unfold ImeLogic.said
  split
  · rfl
  · exact within_then (did_commit_within s _) (log_within env _ _)

/-- A commit sets nothing but the label, the flags of the text and the log. -/
theorem commit_within : s.multitapCommit env = s.withLabel (s.multitapCommit env) := by
  by_cases hp : s.multitapPending
  · have hclear : (s.said env).multitapClear = s.withLabel (s.said env).multitapClear :=
      within_then (said_within env s) rfl
    rw [multitap_commit_eq env s hp]
    split
    · apply within_then hclear
      unfold ImeLogic.emitCommit
      split
      · rfl
      · exact within_then (did_commit_within _ _) (log_within env _ _)
    · exact hclear
  · rw [multitap_commit_idle env s hp]
    rfl

theorem panel_of_commit : (s.multitapCommit env).panel = s.panel := by
  rw [commit_within]
  rfl

theorem commit_idle : ¬ (s.multitapCommit env).multitapPending := by
  by_cases hp : s.multitapPending
  · exact (multitap_commit_ends env s hp).ended
  · rwa [multitap_commit_idle env s hp]

theorem settled_eq : s.settled env n =
    (if s.LabelDue n then s.multitapCommit env else s).withPanel (s.panel.opened n) := by
  have hopen : ∀ t : ImeLogic, t.panel = s.panel →
      (t.openPicker n).1 = t.withPanel (s.panel.opened n) := by
    intro t ht
    rw [← ht, ImeLogic.openPicker, Panel.opened]
    by_cases hd : t.panel.HoldDue n
    · have hd' : t.sym1.down = true ∧ ¬ t.sym1.longFired = true ∧
        kLongPressMs ≤ n-t.sym1.pressedAtMs := hd
      rw [if_pos hd, if_pos hd']
      rfl
    · have hd' : ¬ (t.sym1.down = true ∧ ¬ t.sym1.longFired = true ∧
        kLongPressMs ≤ n-t.sym1.pressedAtMs) := hd
      rw [if_neg hd, if_neg hd']
      rfl
  rw [ImeLogic.settled, ImeLogic.expireMultitap]
  by_cases hdue : s.LabelDue n
  · rw [if_pos hdue, if_pos (show _ ∧ _ from hdue)]
    exact hopen _ (panel_of_commit env s)
  · rw [if_neg hdue, if_neg (show ¬ (_ ∧ _) from hdue)]
    exact hopen s rfl

theorem settled_panel : (s.withPanel p).settled env n =
    (if s.LabelDue n then s.multitapCommit env else s).withPanel (p.opened n) := by
  rw [settled_eq]
  by_cases hdue : s.LabelDue n
  · have hdue' : (s.withPanel p).LabelDue n := hdue
    rw [if_pos hdue, if_pos hdue', multitap_commit_panel]
    rfl
  · have hdue' : ¬ (s.withPanel p).LabelDue n := hdue
    rw [if_neg hdue, if_neg hdue']
    rfl

theorem settled_commit_panel : ((s.multitapCommit env).withPanel p).settled env n =
    (s.multitapCommit env).withPanel (p.opened n) := by
  have hdue : ¬ (s.multitapCommit env).LabelDue n := fun hdue => commit_idle env s hdue.1
  rw [settled_panel, if_neg hdue]

theorem settled_stamp : (s.stampNow n).settled env n = (s.settled env n).stampNow n := by
  have hs : s.stampNow n = s.withPanel { s.panel with nowMs := n } := rfl
  rw [hs, settled_panel, settled_eq, Panel.opened, Panel.opened]
  by_cases hd : s.panel.HoldDue n
  · have hd' : Panel.HoldDue { s.panel with nowMs := n } n := hd
    rw [if_pos hd, if_pos hd']
    rfl
  · have hd' : ¬ Panel.HoldDue { s.panel with nowMs := n } n := hd
    rw [if_neg hd, if_neg hd']
    rfl

/-- Settling again changes nothing but what is due by then. -/
theorem settled_settled (hnm : n ≤ m) (hlabel : s.multitapPending → s.multitap.lastMs ≤ n)
    (hhold : s.sym1.down = true → s.sym1.pressedAtMs ≤ n) :
    (s.settled env n).settled env m = s.settled env m := by
  have hopened : (s.panel.opened n).opened m = s.panel.opened m := by
    by_cases hd : s.panel.HoldDue n
    · have hm : s.panel.HoldDue m :=
        ⟨hd.1, hd.2.1, UInt32.le_trans hd.2.2 (elapsed_mono _ n m (hhold hd.1) hnm)⟩
      rw [Panel.opened, Panel.opened, Panel.opened, if_pos hd, if_pos hm]
      exact if_neg (fun h => h.2.1 rfl)
    · have hsame : s.panel.opened n = s.panel := if_neg hd
      rw [hsame]
  rw [settled_eq env s n]
  by_cases hdue : s.LabelDue n
  · have hdue' : s.LabelDue m :=
      ⟨hdue.1, UInt32.le_trans hdue.2 (elapsed_mono _ n m (hlabel hdue.1) hnm)⟩
    rw [if_pos hdue, settled_commit_panel, settled_eq env s m, if_pos hdue', hopened]
  · rw [if_neg hdue, settled_panel, settled_eq env s m, hopened]

end Settle

end MokyaLora.Ime
