import MokyaLora.ImeReachable

/-!
# What a call does to the composition

A call leaves the keys, the candidates and the view as they are, searches, puts a
label over them, takes a label away, or clears the composition. Which of these it
may do is said here once, for every call but the loading of the cache.
-/

set_option autoImplicit false

namespace MokyaLora.Ime
open Lib.Fields Lib.Memory Lib.Schedule

structure PendingView where
  str : Bytes
  byteLen : ℕ
  matchedPrefixBytes : ℕ
  style : PendingStyle
  deriving DecidableEq

namespace ImeLogic

variable (s : ImeLogic)

def pendingView : PendingView :=
  ⟨s.display, s.display.length, s.matchedPrefixBytes, s.pendingStyle⟩

def core : InputMode × Bytes × Bytes × List (Candidate × ℕ) :=
  (s.mode, s.keys, s.hints, s.candidates)

def face : (InputMode × Bytes × Bytes × List (Candidate × ℕ)) × PendingView × Keycode :=
  (s.core, s.pendingView, s.multitap.keycode)

def Blank : Prop := s.display = [] ∧ s.pendingStyle = .none ∧ s.matchedPrefixBytes = 0

end ImeLogic

/-- An input key, `SPACE` or `TAB` that neither searches nor shows a label: the
marker is there already, the buffer is full, or there is nothing to do. -/
def IdleInput (s : ImeLogic) (ev : KeyEvent) : Prop :=
  if ev.keycode = mokyaKeySpace then
    s.mode = .smartZh ∧ (s.keySeq (s.keySeqLen-1) = 0x20 ∨ kMaxKeySeq ≤ s.keySeqLen)
  else if ev.keycode = mokyaKeyTab then True
  else match keycodeToInputSlot ev.keycode with
    | none => True
    | some slot => ¬ (s.mode = .smartEn ∧ ∃ e, kKeyTable[slot]? = some e ∧ e.digitSlots ≠ []) ∧
      kMaxKeySeq ≤ s.keySeqLen ∧
      ¬ (s.mode = .smartZh ∧ ev.flags &&& keyFlagLongPress ≠ 0 ∧ s.lpCycle.byteIndex ≠ none ∧
        s.lpCycle.slot = some slot ∧ ev.nowMs-s.lpCycle.lastMs < kMultiTapTimeoutMs)

def Routed (s : ImeLogic) (ev : KeyEvent) : Prop :=
  ¬ (ev.keycode = mokyaKeyBack ∨ ev.keycode = mokyaKeyNone ∨ mokyaKeyLimit ≤ ev.keycode) ∧
    ev.keycode ≠ mokyaKeySym1 ∧ ev.pressed = true ∧ s.symPickerOpen = false

def InputKey (kc : Keycode) : Prop :=
  kc ≠ mokyaKeyMode ∧ kc ≠ mokyaKeyDel ∧ ImeLogic.navDir kc = none ∧ kc ≠ mokyaKeyOk ∧
    kc ≠ mokyaKeySym2

/-- The call ends a pending multi-tap without a search or another label. -/
def DropsLabel (s : ImeLogic) : Call → Prop
  | .tick nowMs => kMultiTapTimeoutMs ≤ nowMs-s.multitap.lastMs
  | .processKey ev =>
    ev.keycode = mokyaKeySym1 ∧ ev.pressed = false ∧ s.sym1.down = true ∧
      s.sym1.longFired = false ∧ s.symPickerOpen = false ∨
    Routed s ev ∧ (ev.keycode = mokyaKeyDel ∨ ev.keycode = mokyaKeyOk ∧ s.hasCandidates = false ∨
      InputKey ev.keycode ∧ ev.keycode ≠ s.multitap.keycode ∧ IdleInput s ev)
  | _ => False

def CommitsCandidate (s : ImeLogic) : Call → Prop
  | .processKey ev => Routed s ev ∧ s.hasCandidates = true ∧
    (ev.keycode = mokyaKeyMode ∧ ¬ s.multitapPending ∨ ev.keycode = mokyaKeyOk ∨
      s.mode = .smartEn ∧ (ev.keycode = mokyaKeySpace ∨
        ∃ e, findKeyEntry ev.keycode = some e ∧ e.digitSlots ≠ []))
  | _ => False

inductive Moved (env : Env) (s t : ImeLogic) (committed : Prop) : Prop where
  | searched (u : ImeLogic) (ready : Ready u) (face : t.face = (u.runSearch env).face)
      (cache : t.lru = u.lru) (lru : u.lru = s.lru ∨ committed)
  | cleared (keys : t.keySeqLen = 0) (candidates : t.candidates = []) (blank : t.Blank)
      (lru : t.lru = s.lru ∨ committed)

structure Labels (s t : ImeLogic) : Prop where
  core : t.core = s.core
  lru : t.lru = s.lru
  pending : t.multitapPending
  style : t.pendingStyle = .inverted
  matched : t.matchedPrefixBytes = 0
  label : t.display ≠ []

/-- A label is taken away. -/
structure Ends (s t : ImeLogic) : Prop where
  core : t.core = s.core
  lru : t.lru = s.lru
  pending : s.multitapPending
  ended : ¬ t.multitapPending
  blank : t.Blank

inductive Shown (env : Env) (s t : ImeLogic) (committed idle : Prop) : Prop where
  | same (face : t.face = s.face) (lru : t.lru = s.lru) (why : 0 < s.keySeqLen → idle)
  | moved (h : Moved env s t committed)
  | labelled (u : ImeLogic) (under : u = s ∨ Moved env s u committed) (h : Labels u t)

inductive Outcome (env : Env) (s t : ImeLogic) (committed dropped : Prop) : Prop where
  | shown (h : Shown env s t committed True)
  | dropped (h : Ends s t) (why : 0 < s.keySeqLen → dropped)

section Quiet

variable (env : Env) (s : ImeLogic)

theorem noted_face {s t : ImeLogic} (h : Noted s t) : t.face = s.face ∧ t.lru = s.lru :=
  ⟨h.keeps ImeLogic.face (fun _ _ _ => rfl), h.keeps ImeLogic.lru (fun _ _ _ => rfl)⟩

theorem log_face (e : Event) : (s.log env e).face = s.face ∧ (s.log env e).lru = s.lru :=
  noted_face (log_noted env s e)

theorem did_commit_face (str : Bytes) :
    (s.didCommit str).face = s.face ∧ (s.didCommit str).lru = s.lru :=
  noted_face (did_commit_noted s str)

theorem emit_face (site : CommitSite) (str : Bytes) :
    (s.emitCommit env site str).face = s.face ∧ (s.emitCommit env site str).lru = s.lru :=
  noted_face (emit_noted env s site str)

theorem emit_notify_face (site : CommitSite) (str : Bytes) :
    ((s.emitCommit env site str).notifyChanged env).face = s.face ∧
    ((s.emitCommit env site str).notifyChanged env).lru = s.lru := by
  have he := emit_face env s site str
  have hn := log_face env (s.emitCommit env site str) .compositionChanged
  exact ⟨hn.1.trans he.1, hn.2.trans he.2⟩

theorem core_of_face {s t : ImeLogic} (h : t.face = s.face) : t.core = s.core :=
  congrArg (fun f => f.1) h

theorem pending_of_face {s t : ImeLogic} (h : t.face = s.face) :
    t.multitapPending ↔ s.multitapPending := by
  have hk : t.multitap.keycode = s.multitap.keycode := congrArg (fun f => f.2.2) h
  rw [ImeLogic.multitapPending, ImeLogic.multitapPending, hk]

theorem blank_of_face {s t : ImeLogic} (h : t.face = s.face) (hs : s.Blank) : t.Blank := by
  have hv : t.pendingView = s.pendingView := congrArg (fun f => f.2.1) h
  simp only [ImeLogic.pendingView, PendingView.mk.injEq] at hv
  exact ⟨hv.1.trans hs.1, hv.2.2.2.trans hs.2.1, hv.2.2.1.trans hs.2.2⟩

theorem length_of_core {s t : ImeLogic} (h : t.core = s.core) : t.keySeqLen = s.keySeqLen := by
  have hk : t.keys = s.keys := congrArg (fun c => c.2.1) h
  have hl := congrArg List.length hk
  rwa [ImeLogic.keys, ImeLogic.keys, bytes_length, bytes_length] at hl

end Quiet

section Compose

variable {env : Env} {s t t' : ImeLogic} {committed committed' idle dropped : Prop}

theorem Moved.imp (hc : committed → committed') (h : Moved env s t committed) :
    Moved env s t committed' := by
  cases h with
  | searched u ready face cache lru => exact .searched u ready face cache (lru.imp_right hc)
  | cleared keys candidates blank lru => exact .cleared keys candidates blank (lru.imp_right hc)

theorem Moved.of_lru {r : ImeLogic} (hl : s.lru = r.lru) (h : Moved env s t committed) :
    Moved env r t committed := by
  cases h with
  | searched u ready face cache lru => exact .searched u ready face cache (by rwa [← hl])
  | cleared keys candidates blank lru => exact .cleared keys candidates blank (by rwa [← hl])

theorem Moved.then (h : Moved env s t committed) (hq : t'.face = t.face ∧ t'.lru = t.lru) :
    Moved env s t' committed := by
  obtain ⟨hf, hl⟩ := hq
  cases h with
  | searched u ready face cache lru => exact .searched u ready (hf.trans face) (hl.trans cache) lru
  | cleared keys candidates blank lru =>
    have hc : t'.candidates = t.candidates := congrArg (fun c => c.2.2.2) (core_of_face hf)
    exact .cleared ((length_of_core (core_of_face hf)).trans keys) (hc.trans candidates)
      (blank_of_face hf blank) (by rwa [hl])

theorem Shown.imp (hc : committed → committed') (h : Shown env s t committed idle) :
    Shown env s t committed' idle := by
  cases h with
  | same face lru why => exact .same face lru why
  | moved h => exact .moved (h.imp hc)
  | labelled u under h => exact .labelled u (under.imp_right (Moved.imp hc)) h

theorem Labels.then (h : Labels s t) (hq : t'.face = t.face ∧ t'.lru = t.lru) : Labels s t' := by
  have hv : t'.pendingView = t.pendingView := congrArg (fun f => f.2.1) hq.1
  simp only [ImeLogic.pendingView, PendingView.mk.injEq] at hv
  exact ⟨(core_of_face hq.1).trans h.core, hq.2.trans h.lru, (pending_of_face hq.1).mpr h.pending,
    hv.2.2.2.trans h.style, hv.2.2.1.trans h.matched, by rw [hv.1]; exact h.label⟩

theorem Ends.then (h : Ends s t) (hq : t'.face = t.face ∧ t'.lru = t.lru) : Ends s t' :=
  ⟨(core_of_face hq.1).trans h.core, hq.2.trans h.lru, h.pending,
    fun hp => h.ended ((pending_of_face hq.1).mp hp), blank_of_face hq.1 h.blank⟩

theorem Shown.then (h : Shown env s t committed idle) (hq : t'.face = t.face ∧ t'.lru = t.lru) :
    Shown env s t' committed idle := by
  cases h with
  | same face lru why => exact .same (hq.1.trans face) (hq.2.trans lru) why
  | moved h => exact .moved (h.then hq)
  | labelled u under h => exact .labelled u under (h.then hq)

theorem Outcome.then (h : Outcome env s t committed dropped)
    (hq : t'.face = t.face ∧ t'.lru = t.lru) : Outcome env s t' committed dropped := by
  cases h with
  | shown h => exact .shown (h.then hq)
  | dropped h why => exact .dropped (h.then hq) why

theorem Outcome.quiet (hq : t.face = s.face ∧ t.lru = s.lru) : Outcome env s t committed dropped :=
  .shown (.same hq.1 hq.2 (fun _ => trivial))

theorem Outcome.after {r : ImeLogic} (h : Outcome env s t committed dropped)
    (hq : s.face = r.face ∧ s.lru = r.lru) : Outcome env r t committed dropped := by
  have hcore := core_of_face hq.1
  cases h with
  | shown h =>
    cases h with
    | same face lru why => exact .quiet ⟨face.trans hq.1, lru.trans hq.2⟩
    | moved h => exact .shown (.moved (h.of_lru hq.2))
    | labelled u under h =>
      rcases under with rfl | under
      · exact .shown (.labelled r (.inl rfl) ⟨h.core.trans hcore, h.lru.trans hq.2, h.pending,
          h.style, h.matched, h.label⟩)
      · exact .shown (.labelled u (.inr (under.of_lru hq.2)) h)
  | dropped h why =>
    exact .dropped ⟨h.core.trans hcore, h.lru.trans hq.2, (pending_of_face hq.1).mp h.pending,
      h.ended, h.blank⟩ (fun hl => why (by rwa [length_of_core hcore]))

theorem Shown.outcome (h : Shown env s t committed idle) : Outcome env s t committed dropped := by
  cases h with
  | same face lru why => exact .quiet ⟨face, lru⟩
  | moved h => exact .shown (.moved h)
  | labelled u under h => exact .shown (.labelled u under h)

theorem Outcome.imp {dropped' : Prop} (hc : committed → committed') (hd : dropped → dropped')
    (h : Outcome env s t committed dropped) : Outcome env s t committed' dropped' := by
  cases h with
  | shown h => exact .shown (h.imp hc)
  | dropped h why => exact .dropped h (fun hl => hd (why hl))

theorem Ends.outcome {r : ImeLogic} (hr : Ends r s) (h : Shown env s t committed idle) :
    Outcome env r t committed idle := by
  cases h with
  | same face lru why =>
    refine .dropped (hr.then ⟨face, lru⟩) (fun hl => why ?_)
    rwa [length_of_core hr.core]
  | moved h => exact .shown (.moved (h.of_lru hr.lru))
  | labelled u under h =>
    rcases under with rfl | under
    · exact .shown (.labelled r (.inl rfl) ⟨h.core.trans hr.core, h.lru.trans hr.lru, h.pending,
        h.style, h.matched, h.label⟩)
    · exact .shown (.labelled u (.inr (under.of_lru hr.lru)) h)

theorem Ends.direct {r : ImeLogic} {idle' : Prop} (hr : Ends r s) (hl : s.keySeqLen = 0)
    (h : Outcome env s t committed idle) : Outcome env r t committed idle' := by
  have hno : 0 < r.keySeqLen → idle' := fun hpos => by
    rw [← length_of_core hr.core, hl] at hpos
    exact absurd hpos (Nat.lt_irrefl 0)
  cases h with
  | shown h =>
    cases h with
    | same face lru why => exact .dropped (hr.then ⟨face, lru⟩) hno
    | moved h => exact hr.outcome (.moved h)
    | labelled u under h => exact hr.outcome (.labelled u under h)
  | dropped h why => exact absurd h.pending hr.ended

end Compose

section Handlers

variable (env : Env) (s : ImeLogic)

theorem run_search_lru : (s.runSearch env).lru = s.lru := (run_search_retains env s).lru

theorem searched_outcome (u : ImeLogic) (hu : Ready u) (hl : u.lru = s.lru) :
    Moved env s (u.keysChanged env) False := by
  have hq := log_face env (u.runSearch env) .compositionChanged
  exact .searched u hu hq.1 (hq.2.trans (run_search_lru env u)) (.inl hl)

theorem commit_partial_outcome (site : CommitSite) (str : Bytes) (n : ℕ) (h : Ready s) :
    Moved env s (s.commitPartial env site str n) True := by
  obtain ⟨t, ht, -, hcommit⟩ := commit_partial_search env s site str n
  rw [hcommit]
  exact .searched (t.consumeKeys n) (ready_consume t n (ready_of_base s t ht h)).1 rfl
    (run_search_lru env _) (.inr trivial)

theorem commit_selected_outcome (h : Inv s) (hc : s.hasCandidates = true) :
    Moved env s (s.commitSelectedCandidate env) True := by
  have hlt := selected_lt s hc
  unfold ImeLogic.commitSelectedCandidate
  dsimp only
  generalize (if s.selected < s.candidates.length then s.selected else 0) = sel at hlt ⊢
  rw [List.getElem?_eq_getElem hlt]
  dsimp only
  split
  · have hq := emit_commit_quiet env s .literal [space]
    exact (commit_partial_outcome env _ _ _ _ (ready_of_base s _ hq.1 h.ready)).of_lru
      (emit_face env s .literal [space]).2
  · exact commit_partial_outcome env s _ _ _ h.ready

theorem multitap_commit_idle (hp : ¬ s.multitapPending) : s.multitapCommit env = s := by
  rw [ImeLogic.multitapCommit, if_pos hp]

theorem multitap_commit_ends (hp : s.multitapPending) : Ends s (s.multitapCommit env) := by
  rw [ImeLogic.multitapCommit, if_neg (not_not.mpr hp)]
  dsimp only
  generalize ht : (if s.display = [] then s else (s.didCommit s.display).log env
    (.commit (.multitap s.multitap.keycode s.multitap.slotIdx s.mode) s.display)) = t
  have hq : t.face = s.face ∧ t.lru = s.lru := by
    rw [← ht]
    split
    · exact ⟨rfl, rfl⟩
    · have hl := log_face env (s.didCommit s.display)
        (.commit (.multitap s.multitap.keycode s.multitap.slotIdx s.mode) s.display)
      have hd := did_commit_face s s.display
      exact ⟨hl.1.trans hd.1, hl.2.trans hd.2⟩
  have hcore : t.core = s.core := core_of_face hq.1
  have hclear : Ends s t.multitapClear := ⟨hcore, hq.2, hp, fun h => h rfl, rfl, rfl, rfl⟩
  split
  · exact hclear.then (emit_face env _ _ _)
  · exact hclear

theorem multitap_commit_outcome (dropped : Prop) (hd : s.multitapPending → dropped) :
    Outcome env s (s.multitapCommit env) False dropped := by
  by_cases hp : s.multitapPending
  · exact .dropped (multitap_commit_ends env s hp) (fun _ => hd hp)
  · rw [multitap_commit_idle env s hp]
    exact .quiet ⟨rfl, rfl⟩

theorem multitap_commit_core : (s.multitapCommit env).core = s.core ∧
    (s.multitapCommit env).lru = s.lru := by
  by_cases hp : s.multitapPending
  · have he := multitap_commit_ends env s hp
    exact ⟨he.core, he.lru⟩
  · rw [multitap_commit_idle env s hp]
    exact ⟨rfl, rfl⟩

theorem label_ne_nil (kc : Keycode) (idx : ℕ) (mode : InputMode) (l : Bytes)
    (h : multitapLabel kc idx mode = some l) : l.take kMaxDisplayBytes ≠ [] := by
  have hchar : ∀ c : Char, utf8 c ≠ [] := by
    intro c hc
    have hl := congrArg List.length hc
    rw [utf8, String.length_utf8EncodeChar] at hl
    exact Nat.ne_of_gt c.utf8Size_pos hl
  have hmem := List.mem_of_getElem? h
  have hne : l ≠ [] := by
    unfold multitapLabels at hmem
    split at hmem
    · cases mode <;> simp only [kSym2Cycle, List.mem_cons, List.not_mem_nil, or_false] at hmem <;>
        rcases hmem with rfl | rfl | rfl <;> exact hchar _
    · split at hmem
      · cases hmem
      · split at hmem
        all_goals
          obtain ⟨c, -, rfl⟩ := List.mem_map.mp hmem
          exact hchar c
  intro hnil
  rcases List.take_eq_nil_iff.mp hnil with h0 | h0
  · cases h0
  · exact hne h0

theorem multitap_press_labels (h : Inv s) (kc : Keycode) (n : ℕ) (nowMs : UInt32)
    (hkc : kc ≠ mokyaKeyNone) (hn : n = (multitapLabels kc s.mode).length) (hpos : 0 < n) :
    Labels s (s.multitapPress env kc n true nowMs) := by
  obtain ⟨-, hm, hk, hlt, -⟩ := press_label env s h kc n s.multitap.lastMs hkc hn hpos
  unfold ImeLogic.multitapPress
  dsimp only
  have hcore : (if s.multitap.keycode = kc then
      { s with multitap := { s.multitap with slotIdx := (s.multitap.slotIdx+1) % n } }
    else { s.multitapCommit env with multitap := ⟨kc, 0, n, true, s.multitap.lastMs⟩ }).core =
      s.core ∧ (if s.multitap.keycode = kc then
      { s with multitap := { s.multitap with slotIdx := (s.multitap.slotIdx+1) % n } }
    else { s.multitapCommit env with multitap := ⟨kc, 0, n, true, s.multitap.lastMs⟩ }).lru =
      s.lru := by
    split
    · exact ⟨rfl, rfl⟩
    · exact multitap_commit_core env s
  generalize (if s.multitap.keycode = kc then
      { s with multitap := { s.multitap with slotIdx := (s.multitap.slotIdx+1) % n } }
    else { s.multitapCommit env with multitap := ⟨kc, 0, n, true, s.multitap.lastMs⟩ }) = t
    at hm hk hlt hcore ⊢
  have hidx : t.multitap.slotIdx < (multitapLabels kc t.mode).length := by rwa [hm, ← hn]
  have hlabel : multitapLabel kc t.multitap.slotIdx t.mode =
      some (multitapLabels kc t.mode)[t.multitap.slotIdx] := List.getElem?_eq_getElem hidx
  rw [skip_missing_self _ _ _ _ _ hidx, hlabel]
  refine Labels.then ?_ (log_face env _ _)
  exact ⟨hcore.1, hcore.2, fun h0 => hkc (hk.symm.trans h0), rfl, rfl, label_ne_nil _ _ _ _ hlabel⟩

theorem discard_moved (hc : s.hasCandidates = false) : Moved env s s.discardKeys False :=
  .cleared rfl (no_candidates s hc) ⟨rfl, rfl, rfl⟩ (.inl rfl)

theorem smart_space_outcome (h : Inv s) (hd : s.mode ≠ .direct) (ev : KeyEvent)
    (hk : ev.keycode = mokyaKeySpace) : Shown env s (s.smartSpace env).1
      (s.hasCandidates = true ∧ s.mode = .smartEn) (IdleInput s ev) := by
  have hq := fun t => emit_notify_face env t .literal [space]
  unfold ImeLogic.smartSpace
  split
  · rename_i hidle
    exact .same (hq s).1 (hq s).2 (fun hl => absurd hidle.1 (Nat.ne_of_gt hl))
  · split
    · rename_i hz
      split
      · rename_i hroom
        refine .moved ((searched_outcome env s (s.keyAppend 0x20 kHintAny) ?_ rfl).imp False.elim)
        exact ready_append s h.ready hroom.2.2 hd 0x20 kHintAny (by decide) (Or.inl rfl) (by simp) _
          (cycle_append s h.ready _ _)
      · rename_i hfull
        refine .same rfl rfl (fun hl => ?_)
        rw [IdleInput, if_pos hk]
        refine ⟨hz, ?_⟩
        by_contra hno
        rw [not_or, Nat.not_le] at hno
        exact hfull ⟨hl, hno.1, hno.2⟩
    · rename_i hz
      have hm : s.mode = .smartEn := by
        cases hmode : s.mode with
        | smartZh => exact absurd hmode hz
        | smartEn => rfl
        | direct => exact absurd hmode hd
      dsimp only
      split
      · rename_i hc
        exact .moved (((commit_selected_outcome env s h hc).imp (fun _ => ⟨hc, hm⟩)).then (hq _))
      · rename_i hc
        split
        · exact .moved (((discard_moved env s (by simpa using hc)).imp False.elim).then (hq _))
        · rename_i hl
          exact .same (hq s).1 (hq s).2 (fun hpos => absurd hpos hl)

theorem smart_tab_outcome (ev : KeyEvent) (hk : ev.keycode = mokyaKeyTab) (committed : Prop) :
    Shown env s (s.smartTab env).1 committed (IdleInput s ev) := by
  have hidle : IdleInput s ev := by
    rw [IdleInput, hk, if_neg (by decide), if_pos rfl]
    trivial
  unfold ImeLogic.smartTab
  split
  · have hn := log_face env
      { s with selected := if s.candidates.length ≤ (s.page+1)*kPageSize then 0
        else (s.page+1)*kPageSize } .compositionChanged
    exact .same hn.1 hn.2 (fun _ => hidle)
  · exact .same rfl rfl (fun _ => hidle)

theorem smart_digit_outcome (h : Inv s) (kc : Keycode) (e : KeyEntry) (nowMs : UInt32)
    (he : findKeyEntry kc = some e) (hd : e.digitSlots ≠ []) (hm : s.mode = .smartEn)
    (idle : Prop) : Shown env s (s.smartDigit env kc e nowMs).1
      (s.hasCandidates = true ∧ s.mode = .smartEn) idle := by
  have hkc := (input_key e (find_key_entry kc e he).1).1
  rw [(find_key_entry kc e he).2] at hkc
  unfold ImeLogic.smartDigit
  dsimp only
  generalize ht : (if 0 < s.keySeqLen then
    if s.hasCandidates = true then s.commitSelectedCandidate env else s.discardKeys else s) = t
  have hi : Inv t ∧ t.mode = s.mode ∧
      (t = s ∨ Moved env s t (s.hasCandidates = true ∧ s.mode = .smartEn)) := by
    rw [← ht]
    split
    · split
      · rename_i hc
        have hspec := commit_selected_spec env s h
        exact ⟨hspec.1, hspec.2.1,
          .inr ((commit_selected_outcome env s h hc).imp (fun _ => ⟨hc, hm⟩))⟩
      · rename_i hc
        have hno : s.hasCandidates = false := by simpa using hc
        exact ⟨inv_discard s h hm hno, rfl, .inr ((discard_moved env s hno).imp False.elim)⟩
    · exact ⟨h, rfl, .inl rfl⟩
  refine .labelled t hi.2.2 (multitap_press_labels env t hi.1 kc _ nowMs hkc ?_ ?_)
  · rw [labels_of_entry kc e _ he, if_pos hd]
  · exact List.length_pos_iff.mpr hd

theorem short_tap_outcome (h : Inv s) (slot : ℕ) (hs : slot < 20) (hd : s.mode ≠ .direct)
    (committed idle : Prop) (hi : kMaxKeySeq ≤ s.keySeqLen → idle) :
    Shown env s (s.smartShortTap env slot).1 committed idle := by
  unfold ImeLogic.smartShortTap
  split
  · rename_i hl
    refine .moved ((searched_outcome env s { s.keyAppend (slotByte slot) kHintAny with
      lpCycle := { s.lpCycle with byteIndex := none } } ?_ rfl).imp False.elim)
    exact ready_append s h.ready hl hd _ _ (slot_byte_range slot hs) (Or.inl rfl) (by simp) _
      (cycle_none _ _ _ _ rfl)
  · rename_i hl
    exact .same rfl rfl (fun _ => hi (not_lt.mp hl))

theorem long_append_outcome (h : Inv s) (slot : ℕ) (e : KeyEntry) (nowMs : UInt32)
    (hs : slot < 20) (he : kKeyTable[slot]? = some e) (hp : 1 ≤ e.phonemes.length)
    (hm : s.mode = .smartZh) (committed idle : Prop) (hi : kMaxKeySeq ≤ s.keySeqLen → idle) :
    Shown env s (ImeLogic.smartLongPress.appendLong env s slot nowMs).1 committed idle := by
  unfold ImeLogic.smartLongPress.appendLong
  split
  · rename_i hl
    refine .moved ((searched_outcome env s { s.keyAppend (slotByte slot) 0 with
      lpCycle := ⟨some s.keySeqLen, some slot, 0, nowMs⟩ } ?_ rfl).imp False.elim)
    exact ready_long_append s h slot e nowMs hs he hp hm hl
  · rename_i hl
    exact .same rfl rfl (fun _ => hi (not_lt.mp hl))

theorem long_press_outcome (h : Inv s) (slot : ℕ) (e : KeyEntry) (nowMs : UInt32)
    (hs : slot < 20) (he : kKeyTable[slot]? = some e)
    (hp : 1 ≤ e.phonemes.length ∧ e.phonemes.length ≤ 3) (hm : s.mode = .smartZh)
    (committed idle : Prop)
    (hi : kMaxKeySeq ≤ s.keySeqLen → ¬ (s.lpCycle.byteIndex ≠ none ∧
      s.lpCycle.slot = some slot ∧ nowMs-s.lpCycle.lastMs < kMultiTapTimeoutMs) → idle) :
    Shown env s (s.smartLongPress env slot e nowMs).1 committed idle := by
  unfold ImeLogic.smartLongPress
  dsimp only
  rw [if_neg (by omega)]
  split
  · rename_i i hidx
    split
    · rename_i hcycle
      refine .moved ((searched_outcome env s { s with
        lpCycle := { s.lpCycle with
          phonemeIdx := (s.lpCycle.phonemeIdx+1) % e.phonemes.length, lastMs := nowMs }
        phonemeHint := store s.phonemeHint i
          (UInt8.ofNat ((s.lpCycle.phonemeIdx+1) % e.phonemes.length)) } ?_ rfl).imp False.elim)
      exact ready_cycle s h slot e nowMs hs he hp i hidx hcycle.1
    · rename_i hcycle
      exact long_append_outcome env s h slot e nowMs hs he hp.1 hm committed idle
        (fun hl => hi hl (fun hc => hcycle hc.2))
  · rename_i hnone
    exact long_append_outcome env s h slot e nowMs hs he hp.1 hm committed idle
      (fun hl => hi hl (fun hc => hc.1 hnone))

theorem handle_smart_outcome (h : Inv s) (ev : KeyEvent) (hd : s.mode ≠ .direct) :
    Shown env s (s.handleSmart env ev).1
      (s.hasCandidates = true ∧ s.mode = .smartEn ∧ (ev.keycode = mokyaKeySpace ∨
        ∃ e, findKeyEntry ev.keycode = some e ∧ e.digitSlots ≠ [])) (IdleInput s ev) := by
  unfold ImeLogic.handleSmart
  split
  · rename_i hk
    exact (smart_space_outcome env s h hd ev hk).imp (fun hc => ⟨hc.1, hc.2, .inl hk⟩)
  rename_i hspace
  split
  · rename_i hk
    exact smart_tab_outcome env s ev hk _
  rename_i htab
  split
  · rename_i hslot
    refine .same rfl rfl (fun _ => ?_)
    rw [IdleInput, if_neg hspace, if_neg htab, hslot]
    trivial
  · rename_i slot hslot
    obtain ⟨hs, e, hmem, he, hk⟩ := input_slot _ _ hslot
    have hidle : ∀ _ : ¬ (s.mode = .smartEn ∧ ∃ e, kKeyTable[slot]? = some e ∧ e.digitSlots ≠ []),
        kMaxKeySeq ≤ s.keySeqLen → ¬ (s.mode = .smartZh ∧ ev.flags &&& keyFlagLongPress ≠ 0 ∧
          s.lpCycle.byteIndex ≠ none ∧ s.lpCycle.slot = some slot ∧
          ev.nowMs-s.lpCycle.lastMs < kMultiTapTimeoutMs) → IdleInput s ev := by
      intro hdig hfull hcycle
      rw [IdleInput, if_neg hspace, if_neg htab, hslot]
      exact ⟨hdig, hfull, hcycle⟩
    rw [he]
    dsimp only
    split
    · rename_i hdig
      have hfind : findKeyEntry ev.keycode = some e := by
        rw [findKeyEntry, hslot, Option.bind_some, he]
      exact (smart_digit_outcome env s h _ e _ hfind hdig.2 hdig.1 _).imp
        (fun hc => ⟨hc.1, hc.2, .inr ⟨e, hfind, hdig.2⟩⟩)
    · rename_i hdig
      have hno : ¬ (s.mode = .smartEn ∧ ∃ e, kKeyTable[slot]? = some e ∧ e.digitSlots ≠ []) := by
        rintro ⟨hm, e', he', hd'⟩
        rw [he, Option.some.injEq] at he'
        exact hdig ⟨hm, he' ▸ hd'⟩
      split
      · rename_i hlong
        exact long_press_outcome env s h slot e _ hs he (input_key e hmem).2.2 hlong.1 _ _
          (fun hfull hc => hidle hno hfull (fun hcycle => hc hcycle.2.2))
      · rename_i hlong
        exact short_tap_outcome env s h slot hs hd _ _
          (fun hfull => hidle hno hfull (fun hcycle => hlong ⟨hcycle.1, hcycle.2.1⟩))

theorem handle_direct_outcome (h : Inv s) (ev : KeyEvent) (hm : s.mode = .direct)
    (committed dropped : Prop) : Outcome env s (s.handleDirect env ev).1 committed dropped := by
  have hl : s.keySeqLen = 0 := h.ready.direct hm
  have hemit : ∀ str : Bytes, Outcome env s
      (((s.multitapCommit env).emitCommit env .literal str).notifyChanged env)
      committed dropped := by
    intro str
    have ho : Outcome env s (s.multitapCommit env) committed dropped := by
      by_cases hp : s.multitapPending
      · exact .dropped (multitap_commit_ends env s hp) (fun hpos => absurd hl (Nat.ne_of_gt hpos))
      · rw [multitap_commit_idle env s hp]
        exact .quiet ⟨rfl, rfl⟩
    exact ho.then (emit_notify_face env _ _ _)
  unfold ImeLogic.handleDirect
  split
  · exact hemit _
  split
  · exact hemit _
  split
  · exact .quiet ⟨rfl, rfl⟩
  · rename_i e he
    obtain ⟨hmem, hk⟩ := find_key_entry _ e he
    split
    · exact .quiet ⟨rfl, rfl⟩
    · rename_i hz
      exact .shown (.labelled s (.inl rfl) (multitap_press_labels env s h _ _ _
        (hk ▸ (input_key e hmem).1) (labels_of_entry ev.keycode e s.mode he).symm
        (Nat.pos_of_ne_zero hz)))

theorem idle_input_congr (s t : ImeLogic) (ev : KeyEvent) (hm : t.mode = s.mode)
    (hk : t.keySeq = s.keySeq) (hl : t.keySeqLen = s.keySeqLen) (hc : t.lpCycle = s.lpCycle)
    (h : IdleInput t ev) : IdleInput s ev := by
  rw [IdleInput, hm, hk, hl, hc] at h
  exact h

theorem multitap_commit_base : ∃ tap, (s.multitapCommit env).base = { s with multitap := tap }.base := by
  unfold ImeLogic.multitapCommit
  split
  · exact ⟨s.multitap, rfl⟩
  · dsimp only
    generalize ht : (if s.display = [] then s else (s.didCommit s.display).log env
      (.commit (.multitap s.multitap.keycode s.multitap.slotIdx s.mode) s.display)) = t
    have hb : t.multitapClear.base = { s with multitap := .none }.base := by
      rw [← ht]
      split
      · rfl
      · have hl := (log_quiet env (s.didCommit s.display)
          (.commit (.multitap s.multitap.keycode s.multitap.slotIdx s.mode) s.display)).1.trans
          (did_commit_quiet s s.display).1
        simp only [ImeLogic.base, Prod.mk.injEq] at hl ⊢
        exact ⟨hl.1, hl.2.1, hl.2.2.1, hl.2.2.2.1, rfl, hl.2.2.2.2.2⟩
    refine ⟨.none, ?_⟩
    split
    · exact (emit_commit_quiet env _ _ _).1.trans hb
    · exact hb

theorem multitap_commit_keys : (s.multitapCommit env).keySeq = s.keySeq ∧
    (s.multitapCommit env).keySeqLen = s.keySeqLen ∧
    (s.multitapCommit env).lpCycle = s.lpCycle ∧ (s.multitapCommit env).mode = s.mode := by
  obtain ⟨tap, hb⟩ := multitap_commit_base env s
  simp only [ImeLogic.base, Prod.mk.injEq] at hb
  exact ⟨hb.2.1, hb.2.2.1, hb.2.2.2.2.2, hb.1⟩

def InputCommits (ev : KeyEvent) : Prop :=
  s.hasCandidates = true ∧ s.mode = .smartEn ∧ (ev.keycode = mokyaKeySpace ∨
    ∃ e, findKeyEntry ev.keycode = some e ∧ e.digitSlots ≠ [])

theorem handle_input_outcome (h : Inv s) (ev : KeyEvent) :
    Outcome env s (s.handleInput env ev).1 (InputCommits s ev)
      (ev.keycode ≠ s.multitap.keycode ∧ IdleInput s ev) := by
  unfold ImeLogic.handleInput
  dsimp only
  by_cases hp : s.multitapPending ∧ s.multitap.keycode ≠ ev.keycode
  · rw [if_pos hp]
    have hi := inv_multitap_commit env s h
    have he := multitap_commit_ends env s hp.1
    obtain ⟨hk, hl, hc, hm⟩ := multitap_commit_keys env s
    have hcand : (s.multitapCommit env).hasCandidates = s.hasCandidates := by
      rw [ImeLogic.hasCandidates, ImeLogic.hasCandidates,
        show (s.multitapCommit env).candidates = s.candidates from
          congrArg (fun c => c.2.2.2) he.core]
    split
    · rename_i hd
      exact he.direct (hi.ready.direct hd)
        (handle_direct_outcome env _ hi ev hd (InputCommits s ev) True)
    · rename_i hd
      have hs := (handle_smart_outcome env _ hi ev hd).imp (fun hcom => show InputCommits s ev from
        ⟨hcand ▸ hcom.1, hm ▸ hcom.2.1, hcom.2.2⟩)
      exact (he.outcome hs).imp id (fun hidle =>
        ⟨fun heq => hp.2 heq.symm, idle_input_congr s _ ev hm hk hl hc hidle⟩)
  · rw [if_neg hp]
    split
    · rename_i hd
      exact handle_direct_outcome env s h ev hd _ _
    · rename_i hd
      exact (handle_smart_outcome env s h ev hd).outcome

theorem handle_sym1_outcome (pressed : Bool) (nowMs : UInt32) (committed : Prop) :
    Outcome env s (s.handleSym1 env pressed nowMs).1 committed
      (pressed = false ∧ s.sym1.down = true ∧ s.sym1.longFired = false ∧
        s.symPickerOpen = false) := by
  unfold ImeLogic.handleSym1
  split
  · split <;> exact .quiet ⟨rfl, rfl⟩
  rename_i hpressed
  split
  · exact .quiet ⟨rfl, rfl⟩
  rename_i hdown
  dsimp only
  split
  · exact .quiet ⟨rfl, rfl⟩
  rename_i hlong
  split
  · exact .quiet (log_face env _ _)
  rename_i hopen
  have hd : pressed = false ∧ s.sym1.down = true ∧ s.sym1.longFired = false ∧
      s.symPickerOpen = false := by simp_all
  generalize ht : { s with sym1 := { s.sym1 with down := false } } = t
  have hq : t.face = s.face ∧ t.lru = s.lru := by
    rw [← ht]
    exact ⟨rfl, rfl⟩
  have ho : Outcome env s (t.multitapCommit env) committed (pressed = false ∧
      s.sym1.down = true ∧ s.sym1.longFired = false ∧ s.symPickerOpen = false) :=
    ((multitap_commit_outcome env t _ (fun _ => hd)).imp False.elim id).after hq
  exact ho.then (emit_notify_face env _ _ _)

theorem handle_sym2_outcome (nowMs : UInt32) (h : Inv s) (committed dropped : Prop) :
    Outcome env s (s.handleSym2 env nowMs).1 committed dropped := by
  unfold ImeLogic.handleSym2
  dsimp only
  generalize ht : (if s.multitap.keycode = mokyaKeySym2 then s else s.multitapCommit env) = t
  have hi : Inv t ∧ t.mode = s.mode ∧ t.core = s.core ∧ t.lru = s.lru := by
    rw [← ht]
    split
    · exact ⟨h, rfl, rfl, rfl⟩
    · exact ⟨inv_multitap_commit env s h, (multitap_commit_spec env s h).2.1,
        multitap_commit_core env s⟩
  generalize hu : (if t.multitap.keycode = mokyaKeySym2 then
    { t with multitap := { t.multitap with
      slotIdx := (t.multitap.slotIdx+1) % (kSym2Cycle s.mode).length, lastMs := nowMs } }
    else { t with multitap := ⟨mokyaKeySym2, 0, (kSym2Cycle s.mode).length, true, nowMs⟩ }) = u
  have hcore : u.core = t.core ∧ u.lru = t.lru ∧ u.multitap.keycode = mokyaKeySym2 ∧
      u.multitap.slotIdx < (kSym2Cycle s.mode).length := by
    rw [← hu]
    split
    · rename_i hk
      exact ⟨rfl, rfl, hk, Nat.mod_lt _ (sym2_cycle_pos s.mode)⟩
    · exact ⟨rfl, rfl, rfl, sym2_cycle_pos s.mode⟩
  have hm : u.mode = s.mode := (congrArg (fun c => c.1) hcore.1).trans hi.2.1
  have hlabel : multitapLabel mokyaKeySym2 u.multitap.slotIdx s.mode =
      some ((kSym2Cycle s.mode).getD u.multitap.slotIdx []) := by
    rw [multitapLabel, sym2_labels, List.getD_eq_getElem?_getD,
      List.getElem?_eq_getElem hcore.2.2.2, Option.getD_some]
  rw [← hm] at hlabel
  refine .shown (.labelled s (.inl rfl) (Labels.then ?_ (log_face env _ _)))
  exact ⟨hcore.1.trans hi.2.2.1, hcore.2.1.trans hi.2.2.2,
    fun h0 => absurd (hcore.2.2.1.symm.trans h0) (by decide), rfl, rfl,
    label_ne_nil _ _ _ _ hlabel⟩

theorem cleared_outcome (t : ImeLogic) (committed : Prop) (hl : t.lru = s.lru ∨ committed)
    (m : MultiTapState) (mode : InputMode) :
    Moved env s { t.compositionClear with mode := mode, multitap := m } committed :=
  .cleared rfl rfl ⟨rfl, rfl, rfl⟩ hl

theorem cycle_mode_outcome (dropped : Prop) : Outcome env s (s.cycleMode env)
    (s.hasCandidates = true ∧ ¬ s.multitapPending) dropped := by
  unfold ImeLogic.cycleMode
  dsimp only
  generalize ht : (if s.multitapPending then s.multitapCommit env
    else if s.hasCandidates = true then s.commitSelectedCandidate env else s) = t
  have hl : t.lru = s.lru ∨ s.hasCandidates = true ∧ ¬ s.multitapPending := by
    rw [← ht]
    split
    · exact .inl (multitap_commit_core env s).2
    · rename_i hp
      split
      · rename_i hc
        exact .inr ⟨hc, hp⟩
      · exact .inl rfl
  exact .shown (.moved ((cleared_outcome env s t _ hl t.multitap (ImeLogic.nextMode t.mode)).then
    (log_face env _ _)))

theorem handle_dpad_outcome (dir : NavDir) (committed dropped : Prop) :
    Outcome env s (s.handleDpad env dir).1 committed dropped := by
  unfold ImeLogic.handleDpad
  split
  · cases dir with
    | left => exact .quiet (log_face env _ _)
    | right => exact .quiet (log_face env _ _)
    | up => exact .quiet ⟨rfl, rfl⟩
    | down => exact .quiet ⟨rfl, rfl⟩
  · exact .quiet (log_face env s _)

theorem handle_del_outcome (h : Inv s) (committed : Prop) :
    Outcome env s (s.handleDel env).1 committed True := by
  unfold ImeLogic.handleDel
  split
  · rename_i hp
    have hclear : Ends s s.multitapClear := ⟨rfl, rfl, hp, fun h0 => h0 rfl, rfl, rfl, rfl⟩
    exact .dropped (hclear.then (log_face env _ _)) (fun _ => trivial)
  · split
    · rename_i hl
      exact .shown (.moved ((searched_outcome env s _ (ready_remove s h.ready hl) rfl).imp False.elim))
    · exact .quiet (log_face env s _)

theorem handle_ok_outcome (h : Inv s) : Outcome env s (s.handleOk env).1
    (s.hasCandidates = true) (s.hasCandidates = false) := by
  unfold ImeLogic.handleOk
  split
  · rename_i hc
    exact .shown (.moved (((commit_selected_outcome env s h hc).imp (fun _ => hc)).then
      (log_face env _ _)))
  · rename_i hc
    have hno : s.hasCandidates = false := by simpa using hc
    split
    · rename_i hp
      exact .dropped ((multitap_commit_ends env s hp).then (log_face env _ _)) (fun _ => hno)
    · exact .quiet (emit_notify_face env s _ _)

theorem handle_picker_outcome (kc : Keycode) (committed dropped : Prop) :
    Outcome env s (s.handlePicker env kc).1 committed dropped := by
  unfold ImeLogic.handlePicker
  split
  · exact .quiet (log_face env _ _)
  · dsimp only
    split
    · generalize hs : { s with symPickerOpen := false, symPickerSel := 0 } = t
      have hq : t.face = s.face ∧ t.lru = s.lru := by
        rw [← hs]
        exact ⟨rfl, rfl⟩
      have hn := emit_notify_face env t (.picker s.symPickerSel)
        (kSymPickerCell.getD s.symPickerSel [])
      exact .quiet ⟨hn.1.trans hq.1, hn.2.trans hq.2⟩
    · exact .quiet (log_face env _ _)

theorem dispatch_mode (ev : KeyEvent) (hr : Routed s ev) (hk : ev.keycode = mokyaKeyMode) :
    s.dispatchKey env ev = (s.cycleMode env, true) := by
  obtain ⟨hkey, hsym, hpressed, hclosed⟩ := hr
  rw [ImeLogic.dispatchKey, if_neg hkey, if_neg hsym, hpressed, hclosed, hk, if_neg (by simp),
    if_neg (by simp), if_pos rfl]

theorem dispatch_ok (ev : KeyEvent) (hr : Routed s ev) (hk : ev.keycode = mokyaKeyOk) :
    s.dispatchKey env ev = s.handleOk env := by
  have hmode : mokyaKeyOk ≠ mokyaKeyMode := by decide
  have hdel : mokyaKeyOk ≠ mokyaKeyDel := by decide
  have hnav : ImeLogic.navDir mokyaKeyOk = none := by decide
  obtain ⟨hkey, hsym, hpressed, hclosed⟩ := hr
  rw [ImeLogic.dispatchKey, if_neg hkey, if_neg hsym, hpressed, hclosed, hk, if_neg (by simp),
    if_neg (by simp), if_neg hmode, if_neg hdel, hnav]
  exact if_pos rfl

theorem dispatch_input (ev : KeyEvent) (hr : Routed s ev) (hk : InputKey ev.keycode) :
    s.dispatchKey env ev = s.handleInput env ev := by
  obtain ⟨hkey, hsym, hpressed, hclosed⟩ := hr
  obtain ⟨hmode, hdel, hnav, hok, hsym2⟩ := hk
  rw [ImeLogic.dispatchKey, if_neg hkey, if_neg hsym, hpressed, hclosed, if_neg (by simp),
    if_neg (by simp), if_neg hmode, if_neg hdel, hnav]
  dsimp only
  rw [if_neg hok, if_neg hsym2]

/-- A key is ignored, or goes to the handler that its code and the picker choose. -/
theorem dispatch_rule (ev : KeyEvent) (P : ImeLogic × Bool → Prop)
    (ignored : ¬ Routed s ev → P (s, false))
    (sym1 : ¬ Routed s ev → ev.keycode = mokyaKeySym1 →
      P (s.handleSym1 env ev.pressed ev.nowMs))
    (picker : ¬ Routed s ev → P (s.handlePicker env ev.keycode))
    (mode : Routed s ev → ev.keycode = mokyaKeyMode → P (s.cycleMode env, true))
    (del : Routed s ev → ev.keycode = mokyaKeyDel → P (s.handleDel env))
    (nav : Routed s ev → ∀ dir, ImeLogic.navDir ev.keycode = some dir → P (s.handleDpad env dir))
    (ok : Routed s ev → ev.keycode = mokyaKeyOk → P (s.handleOk env))
    (sym2 : Routed s ev → ev.keycode = mokyaKeySym2 → P (s.handleSym2 env ev.nowMs))
    (input : Routed s ev → InputKey ev.keycode → P (s.handleInput env ev)) :
    P (s.dispatchKey env ev) := by
  unfold ImeLogic.dispatchKey
  split
  · rename_i hkey
    exact ignored (fun hr => hr.1 hkey)
  rename_i hkey
  split
  · rename_i hsym1
    exact sym1 (fun hr => hr.2.1 hsym1) hsym1
  rename_i hsym1
  split
  · rename_i hreleased
    exact ignored (fun hr => hreleased hr.2.2.1)
  rename_i hpressed
  split
  · rename_i hopen
    exact picker (fun hr => Bool.noConfusion (hopen.symm.trans hr.2.2.2))
  rename_i hclosed
  have hr : Routed s ev := ⟨hkey, hsym1, not_not.mp hpressed, by simpa using hclosed⟩
  split
  · rename_i hmode
    exact mode hr hmode
  rename_i hmode
  split
  · rename_i hdel
    exact del hr hdel
  rename_i hdel
  split
  · rename_i dir hnav
    exact nav hr dir hnav
  rename_i hnav
  split
  · rename_i hok
    exact ok hr hok
  rename_i hok
  split
  · rename_i hsym2
    exact sym2 hr hsym2
  · rename_i hsym2
    exact input hr ⟨hmode, hdel, hnav, hok, hsym2⟩

theorem dispatch_outcome (h : Inv s) (ev : KeyEvent) :
    Outcome env s (s.dispatchKey env ev).1 (CommitsCandidate s (.processKey ev))
      (DropsLabel s (.processKey ev)) := by
  apply dispatch_rule env s ev (fun r => Outcome env s r.1 (CommitsCandidate s (.processKey ev))
    (DropsLabel s (.processKey ev)))
  case ignored =>
    intro _
    exact .quiet ⟨rfl, rfl⟩
  case sym1 =>
    intro _ hsym1
    exact (handle_sym1_outcome env s _ _ _).imp id (fun hd => .inl ⟨hsym1, hd⟩)
  case picker =>
    intro _
    exact handle_picker_outcome env s _ _ _
  case mode =>
    intro hr hmode
    exact (cycle_mode_outcome env s _).imp (fun hc => ⟨hr, hc.1, .inl ⟨hmode, hc.2⟩⟩) id
  case del =>
    intro hr hdel
    exact (handle_del_outcome env s h _).imp id (fun _ => .inr ⟨hr, .inl hdel⟩)
  case nav =>
    intro _ dir _
    exact handle_dpad_outcome env s dir _ _
  case ok =>
    intro hr hok
    exact (handle_ok_outcome env s h).imp (fun hc => ⟨hr, hc, .inr (.inl hok)⟩)
      (fun hc => .inr ⟨hr, .inr (.inl ⟨hok, hc⟩)⟩)
  case sym2 =>
    intro _ _
    exact handle_sym2_outcome env s _ h _ _
  case input =>
    intro hr hkey
    exact (handle_input_outcome env s h ev).imp (fun hc => ⟨hr, hc.1, .inr (.inr hc.2)⟩)
      (fun hd => .inr ⟨hr, .inr (.inr ⟨hkey, hd⟩)⟩)

theorem tick_outcome (nowMs : UInt32) : Outcome env s (s.tick env nowMs).1
    False (kMultiTapTimeoutMs ≤ nowMs-s.multitap.lastMs) := by
  have hexpire : Outcome env s ((s.stampNow nowMs).expireMultitap env nowMs).1
      False (kMultiTapTimeoutMs ≤ nowMs-s.multitap.lastMs) := by
    unfold ImeLogic.expireMultitap
    split
    · rename_i hp
      exact (multitap_commit_outcome env (s.stampNow nowMs) _ (fun _ => hp.2)).after ⟨rfl, rfl⟩
    · exact .quiet ⟨rfl, rfl⟩
  generalize hu : (s.stampNow nowMs).expireMultitap env nowMs = u at hexpire
  have hopen : (u.1.openPicker nowMs).1.face = u.1.face ∧ (u.1.openPicker nowMs).1.lru = u.1.lru := by
    unfold ImeLogic.openPicker
    split <;> exact ⟨rfl, rfl⟩
  have hlocked : ((u.1.openPicker nowMs).1.lockCycle nowMs).face = u.1.face ∧
      ((u.1.openPicker nowMs).1.lockCycle nowMs).lru = u.1.lru := by
    unfold ImeLogic.lockCycle
    split <;> exact hopen
  unfold ImeLogic.tick
  dsimp only
  rw [hu]
  split
  · have hn := log_face env ((u.1.openPicker nowMs).1.lockCycle nowMs) .compositionChanged
    exact hexpire.then ⟨hn.1.trans hlocked.1, hn.2.trans hlocked.2⟩
  · exact hexpire.then hlocked

theorem abort_outcome (committed dropped : Prop) :
    Outcome env s (s.abort env) committed dropped := by
  have haborted : Moved env s s.aborted committed := .cleared rfl rfl ⟨rfl, rfl, rfl⟩ (.inl rfl)
  unfold ImeLogic.abort
  split
  · exact .shown (.moved (haborted.then (log_face env _ _)))
  · exact .shown (.moved haborted)

/-- What a call does to the composition, unless it loads the cache. -/
theorem apply_outcome (h : Inv s) (c : Call) (hc : ∀ buf, c ≠ .loadLru buf) :
    Outcome env s (s.apply env c) (CommitsCandidate s c) (DropsLabel s c) := by
  cases c with
  | processKey ev =>
    exact (dispatch_outcome env (s.stampNow ev.nowMs) (inv_stamp s h _) ev).after ⟨rfl, rfl⟩
  | tick nowMs => exact tick_outcome env s nowMs
  | abort => exact abort_outcome env s _ _
  | setSelected idx =>
    unfold ImeLogic.apply ImeLogic.setSelected
    dsimp only
    split
    · exact .quiet ⟨rfl, rfl⟩
    · exact .quiet (log_face env _ _)
  | setTextContext prev =>
    unfold ImeLogic.apply ImeLogic.setTextContext
    dsimp only
    split <;> exact .quiet ⟨rfl, rfl⟩
  | loadLru buf => exact absurd rfl (hc buf)

end Handlers

end MokyaLora.Ime
