import MokyaLora.ImeAlike
import MokyaLora.ImeContract

/-!
# What `OK` and `MODE` commit

`OK` commits the selected candidate, else a pending multi-tap, else a newline.
`MODE` commits a pending multi-tap, else the selected candidate, and clears the
composition. The keys typed are not looked at by either.
-/

set_option autoImplicit false

namespace MokyaLora.Ime
open Lib.Fields Lib.Memory Lib.Schedule

def newline : Bytes := [0x0A]

def Pressed (kc : Keycode) (s : ImeLogic) : Call → Prop
  | .processKey ev => Routed s ev ∧ ev.keycode = kc
  | _ => False

def told (env : Env) (s : ImeLogic) (c : Call) : List Event :=
  (s.apply env c).events.drop s.events.length

def EngineIdle (s : ImeLogic) : Prop :=
  s.hasCandidates = false ∧ ¬ s.multitapPending ∧ s.keySeqLen = 0

/-- A listener gets a newline for `OK` when the engine is idle, and only then. -/
def NewlineWhenIdle (env : Env) (s : ImeLogic) (c : Call) : Prop :=
  Pressed mokyaKeyOk s c → env.listener = true →
    (newline ∈ (told env s c).filterMap Event.text ↔ EngineIdle s)

/-- `OK` does not find keys alone, nor a candidate or a view that is a newline. -/
def OkPlain (env : Env) (s : ImeLogic) (c : Call) : Prop :=
  Pressed mokyaKeyOk s c → env.listener = true →
    if s.hasCandidates then ∀ p, s.picked = some p → p.1.word ≠ newline
    else if s.multitapPending then s.display ≠ newline
    else s.keySeqLen = 0

namespace ImeLogic

variable (s : ImeLogic)

def Cleared : Prop :=
  s.keySeqLen = 0 ∧ s.display = [] ∧ s.candidates = [] ∧ ¬ s.multitapPending

def candidateText (c : Candidate) : Bytes :=
  if s.mode = .smartEn ∧ s.enCapitalizeNext then capitalize c.word else c.word

def candidateSite : CommitSite :=
  .candidate s.candidates (if s.selected < s.candidates.length then s.selected else 0) s.mode

def multitapSite : CommitSite := .multitap s.multitap.keycode s.multitap.slotIdx s.mode

def pendingLabel : Bytes :=
  (multitapLabel s.multitap.keycode s.multitap.slotIdx s.mode).getD []

end ImeLogic

def logged (env : Env) (es : List Event) : List Event := if env.listener then es else []

def textEvents (site : CommitSite) (str : Bytes) : List Event :=
  if str = [] then [] else [.commit site str]

def selectedEvents (s : ImeLogic) : List Event :=
  match s.picked with
  | none => []
  | some p =>
    (if s.mode = .smartEn ∧ ¬ s.enLastEndedWithSpace then textEvents .literal [space] else [])++
      textEvents s.candidateSite (s.candidateText p.1)

/-- The events of a pending multi-tap, with the space behind punctuation of SmartEn. -/
def multitapEvents (s : ImeLogic) : List Event :=
  textEvents s.multitapSite s.display++
    if s.multitap.keycode = mokyaKeySym2 ∧ s.mode = .smartEn then textEvents .literal [space] else []

section Events

variable (env : Env) (s : ImeLogic)

theorem logged_append (es fs : List Event) : logged env (es++fs) = logged env es++logged env fs := by
  unfold logged
  split <;> simp

theorem log_logged (e : Event) : (s.log env e).events = s.events++logged env [e] := by
  rw [log_events, logged]
  split <;> simp

theorem emit_logged (site : CommitSite) (str : Bytes) :
    (s.emitCommit env site str).events = s.events++logged env (textEvents site str) := by
  unfold ImeLogic.emitCommit textEvents
  split
  · simp [logged]
  · rw [log_logged, events_of_trace (did_commit_trace s str)]

theorem commit_partial_logged (site : CommitSite) (str : Bytes) (n : ℕ) :
    (s.commitPartial env site str n).events = s.events++logged env (textEvents site str) := by
  unfold ImeLogic.commitPartial textEvents
  dsimp only
  rw [searched_events]
  split
  · simp [logged]
  · rw [log_logged, events_of_trace ((did_commit_trace _ str).trans (learn_trace s str n))]

theorem commit_selected_logged :
    (s.commitSelectedCandidate env).events = s.events++logged env (selectedEvents s) := by
  unfold ImeLogic.commitSelectedCandidate selectedEvents ImeLogic.picked
  dsimp only
  split
  · rename_i hnone
    rw [hnone]
    simp [logged]
  · rename_i c n hsome
    have hword : c.word.take (kCandidateMaxBytes-1) = c.word :=
      List.take_of_length_le (Nat.le_sub_one_of_lt c.fits)
    rw [hsome, hword]
    dsimp only
    split
    · rw [commit_partial_logged, emit_logged, List.append_assoc, ← logged_append]
      rfl
    · rw [commit_partial_logged, List.nil_append]
      rfl

theorem multitap_commit_logged (hp : s.multitapPending) :
    (s.multitapCommit env).events = s.events++logged env (multitapEvents s) := by
  have htaken : (labelTaken env s).events =
      s.events++logged env (textEvents s.multitapSite s.display) := emit_logged env s _ s.display
  rw [multitap_commit_taken env s hp, multitapEvents, logged_append, ← List.append_assoc]
  split
  · rw [emit_logged, htaken]
  · rw [htaken]
    simp [logged]

theorem handle_ok_logged : (s.handleOk env).1.events = s.events++logged env
    ((if s.hasCandidates then selectedEvents s else if s.multitapPending then multitapEvents s
      else textEvents .literal newline)++[.compositionChanged]) := by
  unfold ImeLogic.handleOk
  rw [logged_append, ← List.append_assoc]
  split
  · rw [ImeLogic.notifyChanged, log_logged, commit_selected_logged]
  · split
    · rename_i hp
      rw [ImeLogic.notifyChanged, log_logged, multitap_commit_logged env s hp]
    · rw [ImeLogic.notifyChanged, log_logged, emit_logged]
      rfl

theorem cycle_mode_logged : (s.cycleMode env).events = s.events++logged env
    ((if s.multitapPending then multitapEvents s else if s.hasCandidates then selectedEvents s
      else [])++[.compositionChanged]) := by
  unfold ImeLogic.cycleMode
  dsimp only
  rw [ImeLogic.notifyChanged, log_logged, logged_append, ← List.append_assoc]
  congr 1
  show (ImeLogic.events _) = _
  split
  · rename_i hp
    exact multitap_commit_logged env s hp
  · split
    · exact commit_selected_logged env s
    · have hnil : logged env [] = [] := by simp [logged]
      rw [hnil, List.append_nil]
      rfl

theorem told_ok (ev : KeyEvent) (hr : Routed s ev) (hk : ev.keycode = mokyaKeyOk) :
    told env s (.processKey ev) = logged env
      ((if s.hasCandidates then selectedEvents s else if s.multitapPending then multitapEvents s
        else textEvents .literal newline)++[.compositionChanged]) := by
  have hdispatch := dispatch_ok env (s.stampNow ev.nowMs) ev hr hk
  rw [told, ImeLogic.apply, ImeLogic.processKey, hdispatch, handle_ok_logged]
  exact List.drop_left

theorem told_mode (ev : KeyEvent) (hr : Routed s ev) (hk : ev.keycode = mokyaKeyMode) :
    told env s (.processKey ev) = logged env
      ((if s.multitapPending then multitapEvents s else if s.hasCandidates then selectedEvents s
        else [])++[.compositionChanged]) := by
  have hdispatch := dispatch_mode env (s.stampNow ev.nowMs) ev hr hk
  rw [told, ImeLogic.apply, ImeLogic.processKey, hdispatch, cycle_mode_logged]
  exact List.drop_left

end Events

theorem texts_append (es fs : List Event) (str : Bytes) :
    str ∈ (es++fs).filterMap Event.text ↔
      str ∈ es.filterMap Event.text ∨ str ∈ fs.filterMap Event.text := by
  rw [List.filterMap_append, List.mem_append]

theorem mem_texts (site : CommitSite) (str str' : Bytes) (h : str ≠ []) :
    str ∈ (textEvents site str').filterMap Event.text ↔ str' = str := by
  unfold textEvents
  split
  · rename_i hnil
    simp [hnil, Ne.symm h]
  · simp [Event.text, eq_comm]

theorem newline_ne_nil : newline ≠ [] := List.cons_ne_nil _ _

theorem space_no_newline (p : Prop) [Decidable p] :
    newline ∉ (if p then textEvents .literal [space] else []).filterMap Event.text := by
  split
  · rw [mem_texts _ _ _ newline_ne_nil]
    decide
  · simp

theorem text_newline (s : ImeLogic) (c : Candidate) :
    s.candidateText c = newline ↔ c.word = newline := by
  unfold ImeLogic.candidateText
  split
  · unfold capitalize
    split
    · rename_i b bs hword
      rw [hword]
      split
      · rename_i hletter
        have hupper : b-0x20 ≠ 0x0A := by
          intro h
          rw [← UInt8.sub_add_cancel b 0x20, h] at hletter
          exact absurd hletter (by decide)
        have hlower : b ≠ 0x0A := by
          rintro rfl
          exact absurd hletter (by decide)
        simp [newline, hupper, hlower]
      · exact Iff.rfl
    · rename_i hword
      rw [hword]
  · exact Iff.rfl

theorem selected_newline (s : ImeLogic) :
    newline ∈ (selectedEvents s).filterMap Event.text ↔
      ∃ p, s.picked = some p ∧ p.1.word = newline := by
  unfold selectedEvents
  cases s.picked with
  | none => simp
  | some p =>
    simp only [texts_append, space_no_newline, false_or, mem_texts _ _ _ newline_ne_nil,
      text_newline, Option.some.injEq, exists_eq_left']

theorem multitap_newline (s : ImeLogic) :
    newline ∈ (multitapEvents s).filterMap Event.text ↔ s.display = newline := by
  rw [multitapEvents, texts_append, mem_texts _ _ _ newline_ne_nil]
  exact or_iff_left (space_no_newline _)

theorem newline_iff_plain (env : Env) (s : ImeLogic) (c : Call) :
    NewlineWhenIdle env s c ↔ OkPlain env s c := by
  unfold NewlineWhenIdle OkPlain
  apply forall_congr'
  intro hpressed
  apply forall_congr'
  intro hl
  cases c with
  | processKey ev =>
    obtain ⟨hr, hk⟩ := hpressed
    rw [told_ok env s ev hr hk, logged, if_pos hl, texts_append]
    have hchanged : newline ∉ [Event.compositionChanged].filterMap Event.text := by simp [Event.text]
    rw [or_iff_left hchanged, EngineIdle]
    by_cases hcand : s.hasCandidates = true
    · rw [if_pos hcand, if_pos hcand, selected_newline]
      simp [hcand]
    · rw [if_neg hcand, if_neg hcand]
      by_cases hp : s.multitapPending
      · rw [if_pos hp, if_pos hp, multitap_newline]
        simp [hp]
      · rw [if_neg hp, if_neg hp, mem_texts _ _ _ newline_ne_nil]
        simp [hcand, hp]
  | _ => exact absurd hpressed (fun h => h)

/-- In every run `OK` gives a newline just when the engine is idle if and only if it
never finds keys alone, nor a candidate or a view that is a newline. -/
theorem ok_newline_iff (env : Env) (calls : List Call) :
    Along (callStep env) (NewlineWhenIdle env) .init calls ↔
      Along (callStep env) (OkPlain env) .init calls :=
  along_congr (callStep env) _ _ (newline_iff_plain env) calls .init

def okOverKey : List Call := [press 0x01 0, press mokyaKeyOk 1]

/-- `OK` commits a newline over the key, which stays. -/
theorem newline_over_key :
    (ImeLogic.run bareEnv okOverKey).events =
      (ImeLogic.run bareEnv [press 0x01 0]).events++[.commit .literal newline, .compositionChanged] ∧
    (ImeLogic.run bareEnv [press 0x01 0]).keySeqLen = 1 ∧
    ¬ Along (callStep bareEnv) (NewlineWhenIdle bareEnv) .init okOverKey := by
  have hlen : (ImeLogic.run bareEnv [press 0x01 0]).keySeqLen = 1 := by decide +kernel
  have hevents : (ImeLogic.run bareEnv okOverKey).events =
      (ImeLogic.run bareEnv [press 0x01 0]).events++
        [.commit .literal newline, .compositionChanged] := by
    decide +kernel
  have hrouted : Routed (ImeLogic.run bareEnv [press 0x01 0]) ⟨mokyaKeyOk, true, 1, 0⟩ :=
    ⟨by decide, by decide, rfl, by decide +kernel⟩
  refine ⟨hevents, hlen, fun h => ?_⟩
  have hok := (h.2 _ rfl).1 ⟨hrouted, rfl⟩ rfl
  have hmem : newline ∈ (told bareEnv (ImeLogic.run bareEnv [press 0x01 0])
      (press mokyaKeyOk 1)).filterMap Event.text := by decide +kernel
  exact absurd ((hok.mp hmem).2.2.symm.trans hlen) (by decide)

/-- The commits that are due: the pending label and the selected candidate. -/
def dueEvents (s : ImeLogic) : List Event :=
  (if s.multitapPending then [.commit s.multitapSite s.pendingLabel] else [])++
    match s.picked with
    | none => []
    | some p => textEvents s.candidateSite (s.candidateText p.1)

/-- A listener gets all that is due for `MODE`, and nothing is left in the next mode. -/
def ModeFlushes (env : Env) (s : ImeLogic) (c : Call) : Prop :=
  Pressed mokyaKeyMode s c →
    (env.listener = true → ∀ e ∈ dueEvents s, e ∈ told env s c) ∧
    (s.apply env c).Cleared ∧ (s.apply env c).mode = ImeLogic.nextMode s.mode

/-- `MODE` finds a pending multi-tap with its label shown and no candidate with a
string. -/
def ModeWhole (env : Env) (s : ImeLogic) (c : Call) : Prop :=
  Pressed mokyaKeyMode s c → env.listener = true → s.multitapPending →
    s.display = s.pendingLabel ∧ ∀ p, s.picked = some p → p.1.word = []

section Mode

variable (env : Env) (s : ImeLogic)

theorem mem_text_events (site site' : CommitSite) (str str' : Bytes) :
    Event.commit site str ∈ textEvents site' str' ↔ str' ≠ [] ∧ site = site' ∧ str = str' := by
  unfold textEvents
  split
  · rename_i hnil
    simp [hnil]
  · rename_i hne
    simp [hne]

theorem text_nil (c : Candidate) : s.candidateText c = [] ↔ c.word = [] := by
  unfold ImeLogic.candidateText
  split
  · unfold capitalize
    split
    · rename_i hword
      rw [hword]
      split <;> simp
    · rename_i hword
      simp [hword]
  · exact Iff.rfl

theorem pending_label_ne_nil (h : Inv s) (hp : s.multitapPending) : s.pendingLabel ≠ [] := by
  obtain ⟨hlt, hcount⟩ := h.ready.label hp
  have hidx : s.multitap.slotIdx < (multitapLabels s.multitap.keycode s.mode).length := hcount ▸ hlt
  obtain ⟨c, hc⟩ := label_utf8 _ _ _ (List.getElem_mem hidx)
  rw [ImeLogic.pendingLabel, multitapLabel, List.getElem?_eq_getElem hidx, Option.getD_some, hc]
  exact (utf8_short c).1

theorem mem_multitap_events (hl : s.pendingLabel ≠ []) :
    Event.commit s.multitapSite s.pendingLabel ∈ multitapEvents s ↔
      s.display = s.pendingLabel := by
  have hsite : s.multitapSite ≠ .literal := CommitSite.noConfusion
  unfold multitapEvents
  rw [List.mem_append, mem_text_events]
  constructor
  · rintro (⟨-, -, heq⟩ | hspace)
    · exact heq.symm
    · split at hspace
      · exact absurd ((mem_text_events _ _ _ _).mp hspace).2.1 hsite
      · cases hspace
  · intro heq
    exact Or.inl ⟨heq ▸ hl, rfl, heq.symm⟩

theorem candidate_not_multitap (str : Bytes) :
    Event.commit s.candidateSite str ∉ multitapEvents s := by
  unfold multitapEvents
  intro hmem
  rcases List.mem_append.mp hmem with h | h
  · exact CommitSite.noConfusion ((mem_text_events _ _ _ _).mp h).2.1
  · split at h
    · exact CommitSite.noConfusion ((mem_text_events _ _ _ _).mp h).2.1
    · cases h

theorem cycle_mode_cleared (h : Inv s) :
    (s.cycleMode env).Cleared ∧ (s.cycleMode env).mode = ImeLogic.nextMode s.mode := by
  unfold ImeLogic.cycleMode
  dsimp only
  generalize hu : (if s.multitapPending then s.multitapCommit env
    else if s.hasCandidates then s.commitSelectedCandidate env else s) = u
  have hkeep : u.mode = s.mode ∧ ¬ u.multitapPending := by
    rw [← hu]
    split
    · rename_i hp
      obtain ⟨-, hmode, hnone⟩ := multitap_commit_spec env s h
      have hnone := hnone.resolve_right (not_not.mpr hp)
      exact ⟨hmode, fun hpend => hpend (by rw [hnone]; rfl)⟩
    · rename_i hp
      split
      · obtain ⟨-, hmode, htap⟩ := commit_selected_spec env s h
        refine ⟨hmode, fun hpend => hp ?_⟩
        rwa [ImeLogic.multitapPending, htap] at hpend
      · exact ⟨rfl, hp⟩
  have hclear : ({ u.compositionClear with mode := ImeLogic.nextMode u.mode } : ImeLogic).Cleared :=
    ⟨rfl, rfl, rfl, hkeep.2⟩
  rw [← hkeep.1, ImeLogic.notifyChanged]
  unfold ImeLogic.log
  split
  · exact ⟨hclear, rfl⟩
  · exact ⟨hclear, rfl⟩

theorem due_told_pending (h : Inv s) (ev : KeyEvent) (hr : Routed s ev)
    (hk : ev.keycode = mokyaKeyMode) (hl : env.listener = true) (hp : s.multitapPending) :
    (∀ e ∈ dueEvents s, e ∈ told env s (.processKey ev)) ↔
      s.display = s.pendingLabel ∧ ∀ p, s.picked = some p → p.1.word = [] := by
  have hno (site : CommitSite) (str : Bytes) : Event.commit site str ∉ [Event.compositionChanged] := by
    simp
  have hlabel := mem_multitap_events s (pending_label_ne_nil s h hp)
  rw [told_mode env s ev hr hk, logged, if_pos hl, dueEvents, if_pos hp, if_pos hp]
  constructor
  · intro hall
    have hshown := hall _ (List.mem_append_left _ List.mem_cons_self)
    rw [List.mem_append, or_iff_left (hno _ _), hlabel] at hshown
    refine ⟨hshown, fun p hpick => ?_⟩
    by_contra hword
    have hcand := hall (.commit s.candidateSite (s.candidateText p.1)) (by
      rw [hpick]
      apply List.mem_append_right
      rw [mem_text_events]
      exact ⟨mt (text_nil s p.1).mp hword, rfl, rfl⟩)
    rw [List.mem_append, or_iff_left (hno _ _)] at hcand
    exact candidate_not_multitap s _ hcand
  · rintro ⟨hshown, hword⟩ e he
    rcases List.mem_append.mp he with he | he
    · rw [List.mem_singleton.mp he]
      exact List.mem_append_left _ (hlabel.mpr hshown)
    · cases hpick : s.picked with
      | none =>
        rw [hpick] at he
        cases he
      | some p =>
        rw [hpick] at he
        dsimp only at he
        rw [textEvents, if_pos ((text_nil s p.1).mpr (hword p hpick))] at he
        cases he

theorem due_told_idle (ev : KeyEvent) (hr : Routed s ev) (hk : ev.keycode = mokyaKeyMode)
    (hl : env.listener = true) (hp : ¬ s.multitapPending) :
    ∀ e ∈ dueEvents s, e ∈ told env s (.processKey ev) := by
  rw [told_mode env s ev hr hk, logged, if_pos hl, dueEvents, if_neg hp, if_neg hp,
    List.nil_append]
  intro e he
  cases hpick : s.picked with
  | none =>
    rw [hpick] at he
    cases he
  | some p =>
    rw [hpick] at he
    have hne : s.candidates ≠ [] := by
      intro hnil
      rw [ImeLogic.picked, hnil] at hpick
      cases hpick
    have hcand : s.hasCandidates = true := by simp [ImeLogic.hasCandidates, hne]
    rw [if_pos hcand, selectedEvents, hpick]
    exact List.mem_append_left _ (List.mem_append_right _ he)

/-- What is due is committed when the label is shown and hides no candidate. -/
theorem due_told_iff (h : Inv s) (ev : KeyEvent) (hr : Routed s ev) (hk : ev.keycode = mokyaKeyMode)
    (hl : env.listener = true) :
    (∀ e ∈ dueEvents s, e ∈ told env s (.processKey ev)) ↔
      (s.multitapPending → s.display = s.pendingLabel ∧ ∀ p, s.picked = some p → p.1.word = []) := by
  by_cases hp : s.multitapPending
  · rw [due_told_pending env s h ev hr hk hl hp, forall_prop_of_true hp]
  · exact iff_of_true (due_told_idle env s ev hr hk hl hp) (fun hpend => absurd hpend hp)

theorem mode_flushes_iff (h : Inv s) (c : Call) : ModeFlushes env s c ↔ ModeWhole env s c := by
  unfold ModeFlushes ModeWhole
  apply forall_congr'
  intro hpressed
  cases c with
  | processKey ev =>
    obtain ⟨hr, hk⟩ := hpressed
    have hdispatch := dispatch_mode env (s.stampNow ev.nowMs) ev hr hk
    have happly : s.apply env (.processKey ev) = (s.stampNow ev.nowMs).cycleMode env := by
      rw [ImeLogic.apply, ImeLogic.processKey, hdispatch]
    rw [and_iff_left (happly ▸ cycle_mode_cleared env _ (inv_stamp s h ev.nowMs))]
    exact forall_congr' (fun hl => due_told_iff env s h ev hr hk hl)
  | _ => exact absurd hpressed (fun h => h)

end Mode

/-- In every run `MODE` commits all that is pending if and only if it never finds a
multi-tap whose label is not shown or that lies over a candidate. The state behind it
is cleared in any case. -/
theorem mode_flush_iff (env : Env) (calls : List Call) :
    Along (callStep env) (ModeFlushes env) .init calls ↔
      Along (callStep env) (ModeWhole env) .init calls := by
  apply along_iff_of_invariant (callStep env) _ _ Inv _
    (fun s c hs => mode_flushes_iff env s hs c) calls .init inv_init
  intro s c t hs ht
  exact Option.some.inj ht ▸ inv_apply env s hs c

/-- ㄅ is typed, and punctuation is pending over the candidate 八. -/
def modeOverPending : List Call := [press 0x01 0, press mokyaKeySym2 1, press mokyaKeyMode 2]

/-- `MODE` commits the full stop; 八 and its key are gone. -/
theorem candidate_dropped :
    (ImeLogic.run oneWordEnv modeOverPending).commits = [utf8 '。'] ∧
    ((ImeLogic.run oneWordEnv [press 0x01 0, press mokyaKeySym2 1]).picked.map
      (fun p => p.1.word)) = some (utf8 '八') ∧
    ¬ Along (callStep oneWordEnv) (ModeFlushes oneWordEnv) .init modeOverPending := by
  refine ⟨by decide +kernel, by decide +kernel, fun h => ?_⟩
  have hrouted : Routed (ImeLogic.run oneWordEnv [press 0x01 0, press mokyaKeySym2 1])
      ⟨mokyaKeyMode, true, 2, 0⟩ := ⟨by decide, by decide, rfl, by decide +kernel⟩
  have hmode := ((h.2 _ rfl).2 _ rfl).1 ⟨hrouted, rfl⟩
  have hdue : .commit (.candidate (ImeLogic.run oneWordEnv
      [press 0x01 0, press mokyaKeySym2 1]).candidates 0 .smartZh) (utf8 '八') ∈
        dueEvents (ImeLogic.run oneWordEnv [press 0x01 0, press mokyaKeySym2 1]) := by
    decide +kernel
  exact absurd (hmode.1 rfl _ hdue) (by decide +kernel)

end MokyaLora.Ime
