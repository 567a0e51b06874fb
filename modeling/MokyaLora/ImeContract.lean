import MokyaLora.ImePending

/-!
# What a key reports and announces

A key that is not consumed changes nothing that the caller sees, and a change of
the composition ends with `on_composition_changed`. A multi-tap that a key of the
mode ends is committed before the key is looked at, and only a key that the mode
acts on announces it.
-/

set_option autoImplicit false

namespace MokyaLora.Ime
open Lib.Fields Lib.Memory Lib.Schedule

namespace ImeLogic

variable (s : ImeLogic)

def composed : PendingView × List (Candidate × ℕ) × Bool × ℕ :=
  (s.pendingView, s.candidates, s.symPickerOpen, s.symPickerSel)

def observed : (PendingView × List (Candidate × ℕ) × Bool × ℕ) × ℕ × InputMode :=
  (s.composed, s.selected, s.mode)

end ImeLogic

/-- The listener, if any, is called between the two states, last with
`on_composition_changed`. -/
def Notified (env : Env) (s t : ImeLogic) : Prop :=
  env.listener = true → ∃ new, t.events = s.events++new++[.compositionChanged]

def Announces (env : Env) (s t : ImeLogic) : Prop := t.composed ≠ s.composed → Notified env s t

/-- What `process_key` promises of the state and the value that it returns. -/
structure Contract (env : Env) (s : ImeLogic) (r : ImeLogic × Bool) : Prop where
  unconsumed : r.2 = false → r.1.events = s.events ∧ r.1.observed = s.observed
  announced : Announces env s r.1

def CallContract (env : Env) (s : ImeLogic) : Call → Prop
  | .processKey ev => Contract env s (s.processKey env ev)
  | .tick nowMs => Announces env s (s.tick env nowMs).1
  | _ => True

/-- A held key that would cycle the phoneme of the last byte. -/
def Cycles (s : ImeLogic) (ev : KeyEvent) (slot : ℕ) : Prop :=
  s.mode = .smartZh ∧ ev.flags &&& keyFlagLongPress ≠ 0 ∧ s.lpCycle.byteIndex ≠ none ∧
    s.lpCycle.slot = some slot ∧ ev.nowMs-s.lpCycle.lastMs < kMultiTapTimeoutMs

def Unused (s : ImeLogic) (ev : KeyEvent) : Prop :=
  ev.keycode ≠ mokyaKeySpace ∧
    if s.mode = .direct then
      ev.keycode ≠ mokyaKeyTab ∧
        ∀ e, findKeyEntry ev.keycode = some e → ImeLogic.directSlots e = 0
    else if ev.keycode = mokyaKeyTab then s.hasCandidates = false
    else findKeyEntry ev.keycode = none

/-- A key that the mode takes and that finds the tone marked already, or the key
sequence full. -/
def Swallowed (s : ImeLogic) (ev : KeyEvent) : Prop :=
  if ev.keycode = mokyaKeySpace then
    s.mode = .smartZh ∧ 0 < s.keySeqLen ∧
      (s.keySeq (s.keySeqLen-1) = 0x20 ∨ kMaxKeySeq ≤ s.keySeqLen)
  else s.mode ≠ .direct ∧ ev.keycode ≠ mokyaKeyTab ∧ ∃ slot e,
    keycodeToInputSlot ev.keycode = some slot ∧ kKeyTable[slot]? = some e ∧
    ¬ (s.mode = .smartEn ∧ e.digitSlots ≠ []) ∧ kMaxKeySeq ≤ s.keySeqLen ∧ ¬ Cycles s ev slot

/-- The event ends the multi-tap of another key before the mode sees it. -/
def Flushes (s : ImeLogic) (ev : KeyEvent) : Prop :=
  Routed s ev ∧ InputKey ev.keycode ∧ s.multitapPending ∧ s.multitap.keycode ≠ ev.keycode

/-- The mode does nothing with the key after a label was taken away, or a space
committed behind one that was gone: nobody is told. -/
def Silent (env : Env) (s : ImeLogic) (ev : KeyEvent) : Prop :=
  Unused s ev ∧ (¬ s.Blank ∨
    env.listener = true ∧ s.multitap.keycode = mokyaKeySym2 ∧ s.mode = .smartEn) ∨
  Swallowed s ev ∧ env.listener = true ∧ ¬ s.Blank

def SilentFlush (env : Env) (s : ImeLogic) : Call → Prop
  | .processKey ev => Flushes s ev ∧ Silent env s ev
  | _ => False

section Logged

variable (env : Env) (s : ImeLogic)

theorem log_events (e : Event) :
    (s.log env e).events = if env.listener then s.events++[e] else s.events := by
  unfold ImeLogic.log
  split <;> rfl

theorem log_grows (e : Event) : s.events <+: (s.log env e).events := by
  rw [log_events]
  split
  · exact List.prefix_append _ _
  · exact List.prefix_rfl

theorem events_of_trace {s t : ImeLogic} (h : t.trace = s.trace) : t.events = s.events :=
  congrArg (fun x => x.2.2.2) h

theorem emit_events (site : CommitSite) (str : Bytes) (h : str ≠ []) :
    (s.emitCommit env site str).events =
      if env.listener then s.events++[.commit site str] else s.events := by
  rw [ImeLogic.emitCommit, if_neg h, log_events, events_of_trace (did_commit_trace s str)]

theorem emit_grows (site : CommitSite) (str : Bytes) :
    s.events <+: (s.emitCommit env site str).events := by
  unfold ImeLogic.emitCommit
  split
  · exact List.prefix_rfl
  · have hlog := log_grows env (s.didCommit str) (.commit site str)
    rwa [events_of_trace (did_commit_trace s str)] at hlog

theorem searched_events (n : ℕ) : ((s.consumeKeys n).runSearch env).events = s.events :=
  events_of_trace ((run_search_trace env _).trans (consume_trace s n))

theorem commit_partial_grows (site : CommitSite) (str : Bytes) (n : ℕ) :
    s.events <+: (s.commitPartial env site str n).events := by
  unfold ImeLogic.commitPartial
  dsimp only
  rw [searched_events]
  split
  · exact List.prefix_rfl
  · have hlog := log_grows env ((s.learn str n).didCommit str) (.commit site str)
    rwa [events_of_trace ((did_commit_trace _ str).trans (learn_trace s str n))] at hlog

theorem commit_selected_grows : s.events <+: (s.commitSelectedCandidate env).events := by
  unfold ImeLogic.commitSelectedCandidate
  dsimp only
  split
  · exact List.prefix_rfl
  · split
    · exact (emit_grows env s _ _).trans (commit_partial_grows env _ _ _ _)
    · exact commit_partial_grows env s _ _ _

def labelTaken : ImeLogic :=
  (s.emitCommit env (.multitap s.multitap.keycode s.multitap.slotIdx s.mode)
    s.display).multitapClear

theorem multitap_commit_taken (hp : s.multitapPending) :
    s.multitapCommit env =
      if s.multitap.keycode = mokyaKeySym2 ∧ s.mode = .smartEn then
        (labelTaken env s).emitCommit env .literal [space]
      else labelTaken env s := by
  have hmode : (labelTaken env s).mode = s.mode :=
    congrArg (fun f => f.1.1) (emit_face env s _ s.display).1
  calc
    s.multitapCommit env = if s.multitap.keycode = mokyaKeySym2 ∧
        (labelTaken env s).mode = .smartEn then
          (labelTaken env s).emitCommit env .literal [space]
        else labelTaken env s := by
      rw [ImeLogic.multitapCommit, if_neg (not_not.mpr hp)]
      rfl
    _ = _ := by rw [hmode]

theorem taken_grows : s.events <+: (labelTaken env s).events := emit_grows env s _ s.display

theorem multitap_commit_grows : s.events <+: (s.multitapCommit env).events := by
  by_cases hp : s.multitapPending
  · rw [multitap_commit_taken env s hp]
    split
    · exact (taken_grows env s).trans (emit_grows env _ _ _)
    · exact taken_grows env s
  · have hidle := multitap_commit_idle env s hp
    exact (congrArg ImeLogic.events hidle).symm ▸ List.prefix_rfl

theorem taken_events : (labelTaken env s).events = s.events ↔
    ¬ (env.listener = true ∧ s.display ≠ []) := by
  show (s.emitCommit env _ s.display).events = s.events ↔ _
  by_cases hd : s.display = []
  · have hsame (site : CommitSite) : s.emitCommit env site s.display = s := if_pos hd
    rw [hsame]
    simp [hd]
  · rw [emit_events env s _ _ hd]
    cases env.listener <;> simp [hd]

theorem multitap_commit_events (hp : s.multitapPending) :
    (s.multitapCommit env).events = s.events ↔
      ¬ (env.listener = true ∧ (s.display ≠ [] ∨
        s.multitap.keycode = mokyaKeySym2 ∧ s.mode = .smartEn)) := by
  rw [multitap_commit_taken env s hp]
  split
  · rename_i hen
    rw [emit_events env _ _ _ (List.cons_ne_nil _ _)]
    cases hl : env.listener with
    | false => simpa [hl] using taken_events env s
    | true =>
      have hlong : (labelTaken env s).events++[.commit .literal [space]] ≠ s.events := by
        intro h
        have hlen := congrArg List.length h
        have hle := (taken_grows env s).length_le
        rw [List.length_append, List.length_singleton] at hlen
        omega
      simp [hlong, hen]
  · rename_i hen
    simp [taken_events, hen]

def Kept (s t : ImeLogic) : Prop :=
  t = { s with
    multitap := t.multitap
    display := t.display
    pendingStyle := t.pendingStyle
    matchedPrefixBytes := t.matchedPrefixBytes
    enCapitalizeNext := t.enCapitalizeNext
    enLastEndedWithSpace := t.enLastEndedWithSpace
    events := t.events }

theorem emit_kept (site : CommitSite) (str : Bytes) : Kept s (s.emitCommit env site str) := by
  unfold ImeLogic.emitCommit ImeLogic.didCommit ImeLogic.log
  dsimp only
  split
  · rfl
  · split <;> split <;> rfl

theorem multitap_commit_kept : Kept s (s.multitapCommit env) := by
  by_cases hp : s.multitapPending
  · have htaken : Kept s (labelTaken env s) := by
      have hemit := emit_kept env s
        (.multitap s.multitap.keycode s.multitap.slotIdx s.mode) s.display
      rw [Kept] at hemit
      rw [labelTaken, hemit]
      rfl
    rw [multitap_commit_taken env s hp]
    split
    · have hemit := emit_kept env (labelTaken env s) .literal [space]
      rw [Kept] at htaken hemit
      rw [hemit, htaken]
      rfl
    · exact htaken
  · rw [multitap_commit_idle env s hp]
    rfl

end Logged

section Handlers

variable (env : Env)

theorem notified_of_grows {s u : ImeLogic} (h : s.events <+: u.events) :
    Notified env s (u.notifyChanged env) := by
  intro hl
  obtain ⟨new, hnew⟩ := h
  exact ⟨new, by rw [ImeLogic.notifyChanged, log_events, if_pos hl, hnew]⟩

theorem Notified.of_grows {s t u : ImeLogic} (h : Notified env t u) (hs : s.events <+: t.events) :
    Notified env s u := by
  intro hl
  obtain ⟨before, hbefore⟩ := hs
  obtain ⟨new, hnew⟩ := h hl
  exact ⟨before++new, by simp [hnew, ← hbefore]⟩

variable (s : ImeLogic)

theorem keys_changed_notified (u : ImeLogic) (h : u.events = s.events) :
    Notified env s (u.keysChanged env) := by
  apply notified_of_grows env
  have hsame := (events_of_trace (run_search_trace env u)).trans h
  exact hsame ▸ List.prefix_rfl

theorem press_notified (kc : Keycode) (n : ℕ) (inverted : Bool) (nowMs : UInt32) :
    Notified env s (s.multitapPress env kc n inverted nowMs) := by
  apply notified_of_grows env
  show s.events <+: (if s.multitap.keycode = kc then _ else _ : ImeLogic).events
  split
  · exact List.prefix_rfl
  · exact multitap_commit_grows env s

/-- How the mode's handler answers a key. A key of the pending multi-tap is not
looked at further. -/
inductive Answer (ev : KeyEvent) (r : ImeLogic × Bool) : Prop where
  | unused (same : r = (s, false)) (why : ¬ s.multitapPending → Unused s ev)
  | swallowed (same : r = (s, true))
      (why : ¬ s.multitapPending → Swallowed s ev ∧ ¬ Unused s ev)
  | acted (notified : Notified env s r.1) (consumed : r.2 = true)
      (why : ¬ s.multitapPending → ¬ Swallowed s ev ∧ ¬ Unused s ev)

variable (ev : KeyEvent)

theorem smart_space_answer (hk : ev.keycode = mokyaKeySpace) :
    Answer env s ev (s.smartSpace env) := by
  have hused : ¬ Unused s ev := fun h => h.1 hk
  have hswallowed : Swallowed s ev ↔ s.mode = .smartZh ∧ 0 < s.keySeqLen ∧
      (s.keySeq (s.keySeqLen-1) = 0x20 ∨ kMaxKeySeq ≤ s.keySeqLen) := by
    rw [Swallowed, if_pos hk]
  unfold ImeLogic.smartSpace
  split
  · rename_i hidle
    apply Answer.acted (notified_of_grows env (emit_grows env s _ _)) rfl
    intro _
    exact ⟨fun h => absurd hidle.1 (Nat.ne_of_gt (hswallowed.mp h).2.1), hused⟩
  · rename_i hidle
    split
    · rename_i hzh
      split
      · rename_i hroom
        refine .acted (keys_changed_notified env s _ rfl) rfl (fun _ => ⟨fun h => ?_, hused⟩)
        rcases (hswallowed.mp h).2.2 with hmark | hfull
        · exact hroom.2.1 hmark
        · exact Nat.not_lt.mpr hfull hroom.2.2
      · rename_i hroom
        apply Answer.swallowed rfl
        intro hp
        have hpos : 0 < s.keySeqLen := Nat.pos_of_ne_zero (fun h => hidle ⟨h, hp⟩)
        refine ⟨hswallowed.mpr ⟨hzh, hpos, ?_⟩, hused⟩
        by_cases hmark : s.keySeq (s.keySeqLen-1) = 0x20
        · exact .inl hmark
        · exact .inr (Nat.not_lt.mp (fun hlt => hroom ⟨hpos, hmark, hlt⟩))
    · rename_i hzh
      refine .acted (notified_of_grows env ?_) rfl
        (fun _ => ⟨fun h => hzh (hswallowed.mp h).1, hused⟩)
      refine List.IsPrefix.trans ?_ (emit_grows env _ _ _)
      split
      · exact commit_selected_grows env s
      · split <;> exact List.prefix_rfl

theorem smart_tab_answer (hd : s.mode ≠ .direct) (hk : ev.keycode = mokyaKeyTab) :
    Answer env s ev (s.smartTab env) := by
  have hspace : ev.keycode ≠ mokyaKeySpace := by
    rw [hk]
    decide
  have hunused : Unused s ev ↔ s.hasCandidates = false := by
    rw [Unused, if_neg hd, if_pos hk]
    exact and_iff_right hspace
  have hswallowed : ¬ Swallowed s ev := by
    rw [Swallowed, if_neg hspace]
    exact fun h => h.2.1 hk
  unfold ImeLogic.smartTab
  split
  · rename_i hc
    refine .acted (notified_of_grows env List.prefix_rfl) rfl (fun _ => ⟨hswallowed, fun h => ?_⟩)
    rw [hunused.mp h] at hc
    cases hc
  · rename_i hc
    exact .unused rfl (fun _ => hunused.mpr (Bool.eq_false_iff.mpr hc))

theorem not_unused_of_entry (hd : s.mode ≠ .direct) (htab : ev.keycode ≠ mokyaKeyTab)
    {e : KeyEntry} (he : findKeyEntry ev.keycode = some e) : ¬ Unused s ev := by
  intro h
  have hnone := h.2
  rw [if_neg hd, if_neg htab, he] at hnone
  cases hnone

theorem swallowed_slot (hd : s.mode ≠ .direct) (hspace : ev.keycode ≠ mokyaKeySpace)
    (htab : ev.keycode ≠ mokyaKeyTab) {slot : ℕ} {e : KeyEntry}
    (hslot : keycodeToInputSlot ev.keycode = some slot) (he : kKeyTable[slot]? = some e) :
    Swallowed s ev ↔ ¬ (s.mode = .smartEn ∧ e.digitSlots ≠ []) ∧ kMaxKeySeq ≤ s.keySeqLen ∧
      ¬ Cycles s ev slot := by
  rw [Swallowed, if_neg hspace]
  constructor
  · rintro ⟨-, -, slot', e', hslot', he', h⟩
    obtain rfl : slot = slot' := Option.some.inj (hslot.symm.trans hslot')
    obtain rfl : e = e' := Option.some.inj (he.symm.trans he')
    exact h
  · exact fun h => ⟨hd, htab, slot, e, hslot, he, h⟩

theorem append_answer {slot : ℕ} (u : ImeLogic) (hu : u.events = s.events)
    (hcycle : ¬ s.multitapPending → ¬ Cycles s ev slot)
    (hun : ¬ Unused s ev)
    (hsw : Swallowed s ev ↔ kMaxKeySeq ≤ s.keySeqLen ∧ ¬ Cycles s ev slot) :
    Answer env s ev (if s.keySeqLen < kMaxKeySeq then (u.keysChanged env, true) else (s, true)) := by
  split
  · rename_i hroom
    exact .acted (keys_changed_notified env s u hu) rfl
      (fun _ => ⟨fun h => Nat.not_le.mpr hroom (hsw.mp h).1, hun⟩)
  · rename_i hfull
    exact .swallowed rfl (fun hp => ⟨hsw.mpr ⟨Nat.not_lt.mp hfull, hcycle hp⟩, hun⟩)

theorem long_press_answer (slot : ℕ) (e : KeyEntry) (hzh : s.mode = .smartZh)
    (hlong : ev.flags &&& keyFlagLongPress ≠ 0) (hun : ¬ Unused s ev)
    (hsw : Swallowed s ev ↔ kMaxKeySeq ≤ s.keySeqLen ∧ ¬ Cycles s ev slot) :
    Answer env s ev (s.smartLongPress env slot e ev.nowMs) := by
  have happend (hno : ¬ Cycles s ev slot) :
      Answer env s ev (ImeLogic.smartLongPress.appendLong env s slot ev.nowMs) :=
    append_answer env s ev _ rfl (fun _ => hno) hun hsw
  unfold ImeLogic.smartLongPress
  dsimp only
  split
  · rename_i i hi
    split
    · rename_i hin
      have hcycles : Cycles s ev slot := ⟨hzh, hlong, by simp [hi], hin⟩
      exact .acted (keys_changed_notified env s _ rfl) rfl
        (fun _ => ⟨fun h => (hsw.mp h).2 hcycles, hun⟩)
    · rename_i hout
      exact happend (fun h => hout h.2.2.2)
  · rename_i hi
    exact happend (fun h => h.2.2.1 hi)

theorem handle_smart_answer (hd : s.mode ≠ .direct) : Answer env s ev (s.handleSmart env ev) := by
  unfold ImeLogic.handleSmart
  split
  · rename_i hspace
    exact smart_space_answer env s ev hspace
  · rename_i hspace
    split
    · rename_i htab
      exact smart_tab_answer env s ev hd htab
    · rename_i htab
      have hunused : findKeyEntry ev.keycode = none → Unused s ev := fun h => by
        rw [Unused, if_neg hd, if_neg htab]
        exact ⟨hspace, h⟩
      cases hslot : keycodeToInputSlot ev.keycode with
      | none => exact .unused rfl (fun _ => hunused (by rw [findKeyEntry, hslot]; rfl))
      | some slot =>
        obtain ⟨-, e, -, he, -⟩ := input_slot ev.keycode slot hslot
        have hentry : findKeyEntry ev.keycode = some e := by
          rw [findKeyEntry, hslot]
          exact he
        have hun := not_unused_of_entry s ev hd htab hentry
        have hsw := swallowed_slot s ev hd hspace htab hslot he
        simp only [he]
        split
        · rename_i hdigit
          refine .acted ?_ rfl (fun _ => ⟨fun h => (hsw.mp h).1 hdigit, hun⟩)
          refine (press_notified env _ _ _ _ _).of_grows env ?_
          split
          · split
            · exact commit_selected_grows env s
            · exact List.prefix_rfl
          · exact List.prefix_rfl
        · rename_i hdigit
          rw [and_iff_right hdigit] at hsw
          split
          · rename_i hlong
            exact long_press_answer env s ev slot e hlong.1 hlong.2 hun hsw
          · rename_i hshort
            exact append_answer env s ev _ rfl (fun _ h => hshort ⟨h.1, h.2.1⟩) hun hsw

theorem handle_direct_answer (hd : s.mode = .direct) :
    Answer env s ev (s.handleDirect env ev) := by
  have hkeyed (hs : ev.keycode ≠ mokyaKeySpace) : ¬ Swallowed s ev := by
    rw [Swallowed, if_neg hs]
    exact fun h => h.1 hd
  have hunused : Unused s ev ↔ ev.keycode ≠ mokyaKeySpace ∧ ev.keycode ≠ mokyaKeyTab ∧
      ∀ e, findKeyEntry ev.keycode = some e → ImeLogic.directSlots e = 0 := by
    rw [Unused, if_pos hd]
  have hwhite (str : Bytes) : Notified env s
      (((s.multitapCommit env).emitCommit env .literal str).notifyChanged env) :=
    notified_of_grows env ((multitap_commit_grows env s).trans (emit_grows env _ _ _))
  unfold ImeLogic.handleDirect
  split
  · rename_i hspace
    refine .acted (hwhite _) rfl (fun _ => ⟨fun h => ?_, fun h => (hunused.mp h).1 hspace⟩)
    rw [Swallowed, if_pos hspace, hd] at h
    cases h.1
  · rename_i hspace
    split
    · rename_i htab
      exact .acted (hwhite _) rfl
        (fun _ => ⟨hkeyed hspace, fun h => (hunused.mp h).2.1 htab⟩)
    · rename_i htab
      cases he : findKeyEntry ev.keycode with
      | none =>
        exact .unused rfl (fun _ => hunused.mpr ⟨hspace, htab, by simp [he]⟩)
      | some e =>
        dsimp only
        split
        · rename_i hnone
          exact .unused rfl (fun _ => hunused.mpr ⟨hspace, htab, by simpa [he] using hnone⟩)
        · rename_i hsome
          exact .acted (press_notified env s _ _ _ _) rfl (fun _ => ⟨hkeyed hspace,
            fun h => hsome ((hunused.mp h).2.2 e he)⟩)

end Handlers

section Flush

variable (env : Env) (s : ImeLogic) (ev : KeyEvent)

theorem contract_of_notified {s : ImeLogic} {r : ImeLogic × Bool} (h : Notified env s r.1)
    (hc : r.2 = true) : Contract env s r where
  unconsumed hf := Bool.noConfusion (hc.symm.trans hf)
  announced _ := h

theorem contract_of_same {s : ImeLogic} {r : ImeLogic × Bool} (he : r.1.events = s.events)
    (ho : r.1.observed = s.observed) : Contract env s r where
  unconsumed _ := ⟨he, ho⟩
  announced h := absurd (congrArg Prod.fst ho) h

theorem contract_of_answer {r : ImeLogic × Bool} (h : Answer env s ev r) : Contract env s r := by
  cases h with
  | unused same why => exact same ▸ contract_of_same env rfl rfl
  | swallowed same why => exact same ▸ contract_of_same env rfl rfl
  | acted notified consumed why => exact contract_of_notified env notified consumed

theorem handle_input_answer {u : ImeLogic} (hu : u =
    if s.multitapPending ∧ s.multitap.keycode ≠ ev.keycode then s.multitapCommit env else s) :
    Answer env u ev (s.handleInput env ev) := by
  unfold ImeLogic.handleInput
  dsimp only
  rw [← hu]
  cases hm : u.mode with
  | direct => exact handle_direct_answer env u ev hm
  | smartZh => exact handle_smart_answer env u ev (by rw [hm]; exact InputMode.noConfusion)
  | smartEn => exact handle_smart_answer env u ev (by rw [hm]; exact InputMode.noConfusion)

theorem unused_of_kept {u : ImeLogic} (h : Kept s u) : Unused u ev ↔ Unused s ev := by
  rw [Kept] at h
  rw [h]
  exact Iff.rfl

theorem swallowed_of_kept {u : ImeLogic} (h : Kept s u) : Swallowed u ev ↔ Swallowed s ev := by
  rw [Kept] at h
  rw [h]
  exact Iff.rfl

theorem observed_of_kept {u : ImeLogic} (h : Kept s u) :
    (u.observed = s.observed ↔ u.composed = s.composed) ∧
    (u.composed = s.composed ↔ u.pendingView = s.pendingView) := by
  rw [Kept] at h
  rw [h]
  simp [ImeLogic.observed, ImeLogic.composed]

theorem view_of_flush (hp : s.multitapPending) :
    (s.multitapCommit env).pendingView = s.pendingView ↔ s.Blank := by
  obtain ⟨hd, hs, hm⟩ := (multitap_commit_ends env s hp).blank
  simp only [ImeLogic.pendingView, hd, hs, hm, ImeLogic.Blank, PendingView.mk.injEq]
  constructor
  · rintro ⟨hd', -, hm', hs'⟩
    exact ⟨hd'.symm, hs'.symm, hm'.symm⟩
  · rintro ⟨hd', hs', hm'⟩
    exact ⟨hd'.symm, by rw [hd'], hm'.symm, hs'.symm⟩

theorem emit_count (site : CommitSite) (str : Bytes) :
    (s.emitCommit env site str).events.count .compositionChanged =
      s.events.count .compositionChanged := by
  by_cases hs : str = []
  · rw [ImeLogic.emitCommit, if_pos hs]
  · rw [emit_events env s site str hs]
    split
    · rw [List.count_append, List.count_singleton]
      rfl
    · rfl

theorem flush_not_notified (hl : env.listener = true) :
    ¬ Notified env s (s.multitapCommit env) := by
  intro h
  obtain ⟨new, hnew⟩ := h hl
  have htaken : (labelTaken env s).events.count .compositionChanged =
      s.events.count .compositionChanged := emit_count env s _ _
  have hcount : (s.multitapCommit env).events.count .compositionChanged =
      s.events.count .compositionChanged := by
    by_cases hp : s.multitapPending
    · rw [multitap_commit_taken env s hp]
      split
      · rw [emit_count, htaken]
      · exact htaken
    · rw [multitap_commit_idle env s hp]
  rw [hnew, List.count_append, List.count_append, List.count_singleton_self] at hcount
  omega

theorem flush_contract (hp : s.multitapPending) (hk : s.multitap.keycode ≠ ev.keycode) :
    Contract env s (s.handleInput env ev) ↔ ¬ Silent env s ev := by
  have hanswer := handle_input_answer env s ev (if_pos ⟨hp, hk⟩).symm
  have hkept := multitap_commit_kept env s
  have hended := (multitap_commit_ends env s hp).ended
  have hunused := unused_of_kept s ev hkept
  have hswallowed := swallowed_of_kept s ev hkept
  obtain ⟨hobserved, hcomposed⟩ := observed_of_kept s hkept
  have hview := hcomposed.trans (view_of_flush env s hp)
  have hevents := multitap_commit_events env s hp
  cases hanswer with
  | unused same why =>
    have hun : Unused s ev := hunused.mp (why hended)
    have hcontract : Contract env s (s.multitapCommit env, false) ↔
        (s.multitapCommit env).events = s.events ∧ s.Blank :=
      ⟨fun h => ⟨(h.unconsumed rfl).1, hview.mp (hobserved.mp (h.unconsumed rfl).2)⟩,
        fun h => contract_of_same env h.1 (hobserved.mpr (hview.mpr h.2))⟩
    rw [same, hcontract, hevents]
    constructor
    · rintro ⟨hquiet, hblank⟩ (⟨-, hshown | ⟨hl, hen⟩⟩ | ⟨-, -, hshown⟩)
      · exact hshown hblank
      · exact hquiet ⟨hl, .inr hen⟩
      · exact hshown hblank
    · intro h
      have hblank : s.Blank := not_not.mp (fun hb => h (.inl ⟨hun, .inl hb⟩))
      refine ⟨fun hcalled => ?_, hblank⟩
      rcases hcalled.2 with hlabel | hen
      · exact hlabel hblank.1
      · exact h (.inl ⟨hun, .inr ⟨hcalled.1, hen⟩⟩)
  | swallowed same why =>
    rw [hunused, hswallowed] at why
    obtain ⟨hsw, hun⟩ := why hended
    rw [same]
    constructor
    · rintro h (⟨hu, -⟩ | ⟨-, hl, hshown⟩)
      · exact hun hu
      · exact flush_not_notified env s hl (h.announced (fun hc => hshown (hview.mp hc)))
    · intro h
      refine ⟨Bool.noConfusion, fun hc hl => ?_⟩
      exact absurd (.inr ⟨hsw, hl, fun hb => hc (hview.mpr hb)⟩) h
  | acted notified consumed why =>
    rw [hunused, hswallowed] at why
    have hgrows := multitap_commit_grows env s
    have hcontract := contract_of_notified env (notified.of_grows env hgrows) consumed
    have hno : ¬ Silent env s ev := fun h =>
      h.elim (fun h => (why hended).2 h.1) (fun h => (why hended).1 h.1)
    exact iff_of_true hcontract hno

end Flush

section Calls

variable (env : Env) (s : ImeLogic)

theorem contract_of_changed (u : ImeLogic) (h : s.events <+: u.events) :
    Contract env s (u.notifyChanged env, true) :=
  contract_of_notified env (notified_of_grows env h) rfl

theorem contract_of_emit (u : ImeLogic) (h : s.events <+: u.events) (site : CommitSite)
    (str : Bytes) : Contract env s ((u.emitCommit env site str).notifyChanged env, true) :=
  contract_of_changed env s _ (h.trans (emit_grows env u site str))

theorem handle_sym1_contract (pressed : Bool) (nowMs : UInt32) :
    Contract env s (s.handleSym1 env pressed nowMs) := by
  unfold ImeLogic.handleSym1
  split
  · split <;> exact contract_of_same env rfl rfl
  · split
    · exact contract_of_same env rfl rfl
    · dsimp only
      split
      · exact contract_of_same env rfl rfl
      · split
        · exact contract_of_changed env s _ List.prefix_rfl
        · have hgrows := multitap_commit_grows env { s with sym1 := { s.sym1 with down := false } }
          exact contract_of_emit env s _ hgrows _ _

theorem handle_picker_contract (kc : Keycode) : Contract env s (s.handlePicker env kc) := by
  unfold ImeLogic.handlePicker
  split
  · exact contract_of_changed env s _ List.prefix_rfl
  · dsimp only
    split
    · exact contract_of_emit env s { s with symPickerOpen := false, symPickerSel := 0 }
        List.prefix_rfl _ _
    · exact contract_of_changed env s _ List.prefix_rfl

theorem cycle_mode_contract : Contract env s (s.cycleMode env, true) := by
  apply contract_of_changed
  show s.events <+: (if s.multitapPending then _ else _ : ImeLogic).events
  split
  · exact multitap_commit_grows env s
  · split
    · exact commit_selected_grows env s
    · exact List.prefix_rfl

theorem handle_del_contract : Contract env s (s.handleDel env) := by
  unfold ImeLogic.handleDel
  split
  · exact contract_of_changed env s _ List.prefix_rfl
  · split
    · exact contract_of_notified env (keys_changed_notified env s _ rfl) rfl
    · have hcomposed : (s.log env .deleteBefore).composed = s.composed := by
        unfold ImeLogic.log
        split <;> rfl
      exact ⟨Bool.noConfusion, fun h => absurd hcomposed h⟩

theorem handle_dpad_contract (dir : NavDir) : Contract env s (s.handleDpad env dir) := by
  unfold ImeLogic.handleDpad
  split
  · cases dir with
    | left | right => exact contract_of_changed env s _ List.prefix_rfl
    | up | down => exact contract_of_same env rfl rfl
  · have hcomposed : (s.log env (.cursorMove dir)).composed = s.composed := by
      unfold ImeLogic.log
      split <;> rfl
    refine ⟨fun hl => ?_, fun h => absurd hcomposed h⟩
    have hsame : s.log env (.cursorMove dir) = s := if_neg (Bool.eq_false_iff.mp hl)
    exact hsame.symm ▸ ⟨rfl, rfl⟩

theorem handle_ok_contract : Contract env s (s.handleOk env) := by
  unfold ImeLogic.handleOk
  split
  · exact contract_of_changed env s _ (commit_selected_grows env s)
  · split
    · exact contract_of_changed env s _ (multitap_commit_grows env s)
    · exact contract_of_emit env s s List.prefix_rfl _ _

theorem handle_sym2_contract (nowMs : UInt32) : Contract env s (s.handleSym2 env nowMs) := by
  have hgrows : s.events <+:
      (if s.multitap.keycode = mokyaKeySym2 then s else s.multitapCommit env).events := by
    split
    · exact List.prefix_rfl
    · exact multitap_commit_grows env s
  apply contract_of_changed
  generalize (if s.multitap.keycode = mokyaKeySym2 then s else s.multitapCommit env) = u
    at hgrows ⊢
  show s.events <+: (if u.multitap.keycode = mokyaKeySym2 then _ else _ : ImeLogic).events
  split <;> exact hgrows

theorem dispatch_contract (ev : KeyEvent) :
    Contract env s (s.dispatchKey env ev) ↔ ¬ SilentFlush env s (.processKey ev) := by
  apply dispatch_rule env s ev (fun r => Contract env s r ↔ ¬ SilentFlush env s (.processKey ev))
  case ignored =>
    intro hno
    exact iff_of_true (contract_of_same env rfl rfl) (fun h => hno h.1.1)
  case sym1 =>
    intro hno _
    exact iff_of_true (handle_sym1_contract env s _ _) (fun h => hno h.1.1)
  case picker =>
    intro hno
    exact iff_of_true (handle_picker_contract env s _) (fun h => hno h.1.1)
  case mode =>
    intro _ hmode
    exact iff_of_true (cycle_mode_contract env s) (fun h => h.1.2.1.1 hmode)
  case del =>
    intro _ hdel
    exact iff_of_true (handle_del_contract env s) (fun h => h.1.2.1.2.1 hdel)
  case nav =>
    intro _ dir hnav
    exact iff_of_true (handle_dpad_contract env s dir)
      (fun h => Option.noConfusion rfl (heq_of_eq (hnav.symm.trans h.1.2.1.2.2.1)))
  case ok =>
    intro _ hok
    exact iff_of_true (handle_ok_contract env s) (fun h => h.1.2.1.2.2.2.1 hok)
  case sym2 =>
    intro _ hsym2
    exact iff_of_true (handle_sym2_contract env s _) (fun h => h.1.2.1.2.2.2.2 hsym2)
  case input =>
    intro hr hkey
    by_cases hflush : s.multitapPending ∧ s.multitap.keycode ≠ ev.keycode
    · have hflushes : Flushes s ev := ⟨hr, hkey, hflush.1, hflush.2⟩
      rw [flush_contract env s ev hflush.1 hflush.2, SilentFlush, and_iff_right hflushes]
    · have hanswer := handle_input_answer env s ev (if_neg hflush).symm
      exact iff_of_true (contract_of_answer env s ev hanswer) (fun h => hflush h.1.2.2)

theorem expire_grows (nowMs : UInt32) : (s.expireMultitap env nowMs) = (s, false) ∨
    s.events <+: (s.expireMultitap env nowMs).1.events ∧
      (s.expireMultitap env nowMs).2 = true := by
  unfold ImeLogic.expireMultitap
  split
  · exact .inr ⟨multitap_commit_grows env s, rfl⟩
  · exact .inl rfl

theorem open_picker_grows (nowMs : UInt32) : s.openPicker nowMs = (s, false) ∨
    (s.openPicker nowMs).1.events = s.events ∧ (s.openPicker nowMs).2 = true := by
  unfold ImeLogic.openPicker
  split
  · exact .inr ⟨rfl, rfl⟩
  · exact .inl rfl

theorem lock_cycle_same (nowMs : UInt32) : (s.lockCycle nowMs).events = s.events ∧
    (s.lockCycle nowMs).composed = s.composed := by
  unfold ImeLogic.lockCycle
  split <;> exact ⟨rfl, rfl⟩

theorem tick_announces (nowMs : UInt32) : Announces env s (s.tick env nowMs).1 := by
  unfold ImeLogic.tick
  dsimp only
  generalize hu : (s.stampNow nowMs).expireMultitap env nowMs = u
  generalize ht : u.1.openPicker nowMs = t
  have hlock := lock_cycle_same t.1 nowMs
  have hexpire := hu ▸ expire_grows env (s.stampNow nowMs) nowMs
  have hopen := ht ▸ open_picker_grows u.1 nowMs
  have hgrows : s.events <+: (t.1.lockCycle nowMs).events := by
    rw [hlock.1]
    have hfirst : s.events <+: u.1.events := by
      rcases hexpire with rfl | ⟨h, -⟩
      · exact List.prefix_rfl
      · exact h
    rcases hopen with rfl | ⟨h, -⟩
    · exact hfirst
    · exact h ▸ hfirst
  split
  · exact fun _ => notified_of_grows env hgrows
  · rename_i hquiet
    intro hchanged
    rcases hexpire with rfl | ⟨-, h⟩
    · rcases hopen with rfl | ⟨-, h⟩
      · exact absurd hlock.2 hchanged
      · exact absurd (by rw [h, Bool.or_true]) hquiet
    · exact absurd (by rw [h, Bool.true_or]) hquiet

theorem contract_stamp (nowMs : UInt32) (r : ImeLogic × Bool) :
    Contract env s r ↔ Contract env (s.stampNow nowMs) r :=
  ⟨fun h => ⟨h.unconsumed, h.announced⟩, fun h => ⟨h.unconsumed, h.announced⟩⟩

theorem call_contract (c : Call) : CallContract env s c ↔ ¬ SilentFlush env s c := by
  cases c with
  | processKey ev =>
    exact (contract_stamp env s ev.nowMs _).trans (dispatch_contract env (s.stampNow ev.nowMs) ev)
  | tick nowMs => exact iff_of_true (tick_announces env s nowMs) (fun h => h)
  | _ => exact iff_of_true trivial (fun h => h)

end Calls

/-- The calls of a run report and announce what they do if and only if no key of
the run that its mode does nothing with ends a multi-tap. -/
theorem contract_kept_iff (env : Env) (calls : List Call) :
    Along (callStep env) (CallContract env) .init calls ↔
      Along (callStep env) (fun s c => ¬ SilentFlush env s c) .init calls :=
  along_congr (callStep env) _ _ (call_contract env) calls .init

/-- `SYM2` shows a full stop and `TAB` finds no candidates. -/
def tabOverPending : List Call := [press mokyaKeySym2 0, press mokyaKeyTab 1]

/-- `TAB` is not consumed, though it commits the full stop and clears the view, and
nothing is announced. -/
theorem contract_broken :
    ((ImeLogic.run bareEnv [press mokyaKeySym2 0]).processKey bareEnv
      ⟨mokyaKeyTab, true, 1, 0⟩).2 = false ∧
    (ImeLogic.run bareEnv tabOverPending).events =
      (ImeLogic.run bareEnv [press mokyaKeySym2 0]).events++
        [.commit (.multitap mokyaKeySym2 0 .smartZh) (utf8 '。')] ∧
    (ImeLogic.run bareEnv [press mokyaKeySym2 0]).display = utf8 '。' ∧
    (ImeLogic.run bareEnv tabOverPending).display = [] ∧
    ¬ Along (callStep bareEnv) (CallContract bareEnv) .init tabOverPending := by
  have hreply : ((ImeLogic.run bareEnv [press mokyaKeySym2 0]).processKey bareEnv
      ⟨mokyaKeyTab, true, 1, 0⟩).2 = false := by decide +kernel
  have hevents : (ImeLogic.run bareEnv tabOverPending).events =
      (ImeLogic.run bareEnv [press mokyaKeySym2 0]).events++
        [.commit (.multitap mokyaKeySym2 0 .smartZh) (utf8 '。')] := by decide +kernel
  refine ⟨hreply, hevents, by decide +kernel, by decide +kernel, fun h => ?_⟩
  have htab := (h.2 _ rfl).1
  have hsame := (htab.unconsumed hreply).1
  have hlen := congrArg List.length (hevents.symm.trans hsame)
  rw [List.length_append] at hlen
  exact absurd hlen (Nat.succ_ne_self _)

end MokyaLora.Ime
