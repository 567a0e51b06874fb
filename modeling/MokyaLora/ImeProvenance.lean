import MokyaLora.ImeReachable

/-!
# Where a committed string comes from

`multitap_commit` passes on whatever the display shows. The display is the label
of the pending multi-tap until the composition is displayed again, which `OK`
does when it commits a candidate and leaves keys behind, and no other key.
-/

set_option autoImplicit false

namespace MokyaLora.Ime
open Lib.Fields Lib.Memory Lib.Schedule

def fixedLiterals : List Bytes :=
  [[space], [0x0A], [0x09], kSym1ZhShort, kSym1EnShort, text [',', ' ']]

/-- What a call site may commit: a literal, a cell of the picker, a whole
candidate, or the label of the pending slot. -/
def CommitSite.Allows : CommitSite → Bytes → Prop
  | .literal, str => str ∈ fixedLiterals
  | .picker sel, str => kSymPickerCell[sel]? = some str
  | .candidate shown sel mode, str => ∃ p, shown[sel]? = some p ∧
      (str = p.1.word ∨ mode = .smartEn ∧ str = capitalize p.1.word)
  | .multitap kc slotIdx mode, str => multitapLabel kc slotIdx mode = some str

theorem literal_allows (str : Bytes) (h : str ∈ fixedLiterals) : CommitSite.literal.Allows str := h

theorem space_allowed : CommitSite.literal.Allows [space] := literal_allows _ (by decide)

def isToneKey (b : UInt8) : Bool := b == 0x20 || b == 0x22

def ImeLogic.leavesKeys (s : ImeLogic) : Bool :=
  match s.candidates[if s.selected < s.candidates.length then s.selected else 0]? with
  | some p => (s.keys.drop p.2).any (fun b => !isToneKey b)
  | none => false

/-- The call is not an `OK` that commits a candidate and leaves keys behind while
a multi-tap is pending. -/
def KeepsLabel (s : ImeLogic) : Call → Prop
  | .processKey ev => ¬ (ev.keycode = mokyaKeyOk ∧ ev.pressed = true ∧ s.symPickerOpen = false ∧
      s.hasCandidates = true ∧ s.multitapPending ∧ s.leavesKeys = true)
  | _ => True

instance (s : ImeLogic) (c : Call) : Decidable (KeepsLabel s c) := by
  unfold KeepsLabel
  split <;> infer_instance

/-- Every logged commit is one that its call site may make; in a smart mode only
punctuation and the digits of SmartEn are pending. -/
structure Traced (s : ImeLogic) : Prop where
  kind : s.multitapPending → s.mode ≠ .direct → s.multitap.keycode = mokyaKeySym2 ∨
    s.mode = .smartEn ∧ ∃ e, findKeyEntry s.multitap.keycode = some e ∧ e.digitSlots ≠ []
  picker : s.symPickerSel < kSymPickerCells
  log : ∀ site str, .commit site str ∈ s.events → site.Allows str

def LabelShown (s : ImeLogic) : Prop := s.multitapPending →
  s.display = [] ∨ multitapLabel s.multitap.keycode s.multitap.slotIdx s.mode = some s.display

def ImeLogic.trace (s : ImeLogic) : InputMode × MultiTapState × ℕ × List Event :=
  (s.mode, s.multitap, s.symPickerSel, s.events)

theorem traced_of_trace (s t : ImeLogic) (h : t.trace = s.trace) (hs : Traced s) : Traced t := by
  simp only [ImeLogic.trace, Prod.mk.injEq] at h
  obtain ⟨hm, ht, hp, he⟩ := h
  constructor
  · simp only [ImeLogic.multitapPending, hm, ht]
    exact hs.kind
  · rw [hp]
    exact hs.picker
  · rw [he]
    exact hs.log

theorem shown_of_trace (s t : ImeLogic) (h : t.trace = s.trace) (hd : t.display = s.display)
    (hs : LabelShown s) : LabelShown t := by
  simp only [ImeLogic.trace, Prod.mk.injEq] at h
  obtain ⟨hm, ht, -, -⟩ := h
  unfold LabelShown ImeLogic.multitapPending
  rw [hm, ht, hd]
  exact hs

theorem traced_of_idle (s t : ImeLogic) (h : ¬ t.multitapPending)
    (hp : t.symPickerSel < kSymPickerCells) (he : t.events = s.events) (hs : Traced s) : Traced t where
  kind := fun ht => absurd ht h
  picker := hp
  log := he ▸ hs.log

theorem shown_of_idle (t : ImeLogic) (h : ¬ t.multitapPending) : LabelShown t :=
  fun ht => absurd ht h

section Quiet

variable (env : Env) (s : ImeLogic)

theorem did_commit_trace (str : Bytes) : (s.didCommit str).trace = s.trace := by
  unfold ImeLogic.didCommit
  split
  · rfl
  · dsimp only
    split <;> rfl

theorem learn_trace (str : Bytes) (n : ℕ) : (s.learn str n).trace = s.trace := by
  unfold ImeLogic.learn
  split <;> rfl

def Consumed (s t : ImeLogic) : Prop :=
  t = { s with
    keySeq := t.keySeq
    keySeqLen := t.keySeqLen
    phonemeHint := t.phonemeHint
    candidates := t.candidates
    selected := t.selected
    matchedPrefixBytes := t.matchedPrefixBytes
    matchedPrefixKeys := t.matchedPrefixKeys
    lpCycle := t.lpCycle }

theorem Consumed.then {s t u : ImeLogic} (h : Consumed s t) (h' : Consumed t u) :
    Consumed s u := by
  rw [Consumed] at h'
  rw [Consumed, h', h]

theorem strip_tones_consumed (n : ℕ) (s : ImeLogic) : Consumed s (ImeLogic.stripTones n s) := by
  induction n generalizing s with
  | zero => rfl
  | succ n ih =>
    have hdrop : Consumed s (s.keysDrop 1) := rfl
    rw [ImeLogic.stripTones]
    split
    · exact hdrop.then (ih (s.keysDrop 1))
    · rfl

theorem consume_consumed (n : ℕ) : Consumed s (s.consumeKeys n) := by
  have hfinish : ∀ t : ImeLogic, Consumed s t → Consumed s { t with
      keySeq := store t.keySeq t.keySeqLen 0
      candidates := []
      selected := 0
      matchedPrefixBytes := 0
      matchedPrefixKeys := 0
      lpCycle := .none } := fun t ht => ht.then rfl
  unfold ImeLogic.consumeKeys
  dsimp only
  generalize (if 0 < n ∧ n ≤ s.keySeqLen then n else s.keySeqLen) = remove
  have hdrop : Consumed s (s.keysDrop remove) := rfl
  split
  · exact hfinish _ (hdrop.then (strip_tones_consumed _ (s.keysDrop remove)))
  · exact hfinish _ (strip_tones_consumed _ s)

theorem consume_trace (n : ℕ) : (s.consumeKeys n).trace = s.trace := by
  have h := consume_consumed s n
  rw [Consumed] at h
  rw [h]
  rfl

theorem run_search_trace : (s.runSearch env).trace = s.trace := by
  have h := run_search_retains env s
  rw [Retains] at h
  rw [h]
  rfl

theorem run_search_empty (h : s.keySeqLen = 0) : (s.runSearch env).display = [] := by
  have hk : s.searchStart.keySeqLen = 0 := h
  unfold ImeLogic.runSearch
  rw [if_pos hk]
  have hkeys : s.searchStart.keys = [] := by rw [ImeLogic.keys, hk, bytes_zero]
  simp only [ImeLogic.rebuildDisplaySmart, hkeys, List.zip_nil_left, ImeLogic.rebuildFrom]

theorem log_display (e : Event) : (s.log env e).display = s.display :=
  congrArg (fun f => f.2.2) (log_quiet env s e).2

theorem log_label (e : Event) :
    (s.log env e).mode = s.mode ∧ (s.log env e).multitap = s.multitap := by
  have hb := (log_quiet env s e).1
  exact ⟨congrArg (fun b => b.1) hb, congrArg (fun b => b.2.2.2.2.1) hb⟩

theorem shown_log (e : Event) (hs : LabelShown s) : LabelShown (s.log env e) := by
  obtain ⟨hm, ht⟩ := log_label env s e
  unfold LabelShown ImeLogic.multitapPending
  rw [hm, ht, log_display]
  exact hs

theorem traced_log (e : Event) (he : ∀ site str, e = .commit site str → site.Allows str)
    (hs : Traced s) : Traced (s.log env e) := by
  unfold ImeLogic.log
  split
  · refine ⟨hs.kind, hs.picker, ?_⟩
    intro site str hmem
    rcases List.mem_append.mp hmem with hmem | hmem
    · exact hs.log site str hmem
    · exact he site str (List.mem_singleton.mp hmem).symm
  · exact hs

theorem traced_commit (site : CommitSite) (str : Bytes) (h : site.Allows str) (hs : Traced s) :
    Traced ((s.didCommit str).log env (.commit site str)) := by
  apply traced_log
  · intro site' str' heq
    obtain ⟨rfl, rfl⟩ := Event.commit.inj heq
    exact h
  · exact traced_of_trace s _ (did_commit_trace s str) hs

theorem traced_emit (site : CommitSite) (str : Bytes) (h : site.Allows str) (hs : Traced s) :
    Traced (s.emitCommit env site str) := by
  unfold ImeLogic.emitCommit
  split
  · exact hs
  · exact traced_commit env s site str h hs

end Quiet

/-- What every handler keeps. -/
structure Sourced (s : ImeLogic) : Prop where
  traced : Traced s
  shown : LabelShown s

section Sourced

variable (env : Env) (s : ImeLogic)

theorem sourced_of_trace (t : ImeLogic) (h : t.trace = s.trace) (hd : t.display = s.display)
    (hs : Sourced s) : Sourced t :=
  ⟨traced_of_trace s t h hs.traced, shown_of_trace s t h hd hs.shown⟩

theorem sourced_of_idle (t : ImeLogic) (h : ¬ t.multitapPending) (ht : t.trace = s.trace)
    (hs : Traced s) : Sourced t :=
  ⟨traced_of_trace s t ht hs, shown_of_idle t h⟩

theorem sourced_log (e : Event) (he : ∀ site str, e ≠ .commit site str) (hs : Sourced s) :
    Sourced (s.log env e) :=
  ⟨traced_log env s e (fun site str h => absurd h (he site str)) hs.traced,
    shown_log env s e hs.shown⟩

theorem sourced_notify (hs : Sourced s) : Sourced (s.notifyChanged env) :=
  sourced_log env s .compositionChanged (fun _ _ => Event.noConfusion) hs

theorem sourced_emit (site : CommitSite) (str : Bytes) (h : site.Allows str) (hs : Sourced s) :
    Sourced (s.emitCommit env site str) := by
  refine ⟨traced_emit env s site str h hs.traced, ?_⟩
  obtain ⟨hb, hf⟩ := emit_commit_quiet env s site str
  unfold LabelShown ImeLogic.multitapPending
  rw [show (s.emitCommit env site str).mode = s.mode from congrArg (fun b => b.1) hb,
    show (s.emitCommit env site str).multitap = s.multitap from
      congrArg (fun b => b.2.2.2.2.1) hb,
    show (s.emitCommit env site str).display = s.display from congrArg (fun f => f.2.2) hf]
  exact hs.shown

theorem sourced_keys_changed (h : ¬ s.multitapPending) (hs : Traced s) :
    Sourced (s.keysChanged env) := by
  apply sourced_notify
  have ht := run_search_trace env s
  refine sourced_of_idle s _ ?_ ht hs
  rwa [ImeLogic.multitapPending, show (s.runSearch env).multitap = s.multitap from
    congrArg (fun t => t.2.1) ht]

end Sourced

section Candidate

variable (env : Env) (s : ImeLogic)

theorem strip_tones_empty (n : ℕ) (s : ImeLogic) (hn : s.keySeqLen ≤ n)
    (h : ∀ b ∈ s.keys, isToneKey b = true) : (ImeLogic.stripTones n s).keySeqLen = 0 := by
  induction n generalizing s with
  | zero => exact Nat.le_zero.mp hn
  | succ n ih =>
    rw [ImeLogic.stripTones]
    split
    · apply ih
      · simp only [ImeLogic.keysDrop]
        omega
      · intro b hb
        simp only [ImeLogic.keysDrop, ImeLogic.keys] at hb
        rw [bytes_moveDown _ _ _ _ (Nat.le_succ _)] at hb
        exact h b (List.mem_of_mem_drop hb)
    · rename_i hc
      by_contra hl
      have htone := h (s.keySeq 0) ((mem_bytes _ _ _).mpr ⟨0, by omega, rfl⟩)
      simp only [isToneKey, Bool.or_eq_true, beq_iff_eq] at htone
      exact hc ⟨by omega, htone⟩

theorem consume_empty (n : ℕ) (hn : 1 ≤ n ∧ n ≤ s.keySeqLen)
    (h : (s.keys.drop n).any (fun b => !isToneKey b) = false) :
    (s.consumeKeys n).keySeqLen = 0 := by
  have htone : ∀ b ∈ (s.keysDrop n).keys, isToneKey b = true := by
    intro b hb
    simp only [ImeLogic.keysDrop, ImeLogic.keys] at hb
    rw [bytes_moveDown _ _ _ _ (Nat.le_succ _)] at hb
    simpa using List.any_eq_false.mp h b hb
  unfold ImeLogic.consumeKeys
  dsimp only
  rw [if_pos (show 0 < n ∧ n ≤ s.keySeqLen from hn), if_pos (show 0 < n from hn.1)]
  exact strip_tones_empty _ _ (le_refl _) htone

theorem commit_partial_traced (site : CommitSite) (str : Bytes) (n : ℕ) (h : site.Allows str)
    (hs : Traced s) : Traced (s.commitPartial env site str n) := by
  unfold ImeLogic.commitPartial
  dsimp only
  refine traced_of_trace _ _ ((run_search_trace env _).trans (consume_trace _ n)) ?_
  split
  · exact hs
  · exact traced_commit env _ site str h (traced_of_trace s _ (learn_trace s str n) hs)

theorem commit_partial_keys (site : CommitSite) (str : Bytes) (n : ℕ)
    (hn : 1 ≤ n ∧ n ≤ s.keySeqLen)
    (h : (s.keys.drop n).any (fun b => !isToneKey b) = false) :
    (s.commitPartial env site str n).display = [] := by
  obtain ⟨t, ht, -, hcommit⟩ := commit_partial_search env s site str n
  have hl : t.keySeqLen = s.keySeqLen := congrArg (fun b => b.2.2.1) ht
  have hk : t.keySeq = s.keySeq := congrArg (fun b => b.2.1) ht
  rw [hcommit]
  apply run_search_empty
  apply consume_empty
  · rwa [hl]
  · rwa [ImeLogic.keys, hl, hk]

theorem candidate_allows (c : Candidate) (n : ℕ) (sel : ℕ)
    (h : s.candidates[sel]? = some (c, n)) :
    CommitSite.Allows (.candidate s.candidates sel s.mode)
      (if s.mode = .smartEn ∧ s.enCapitalizeNext = true then
        capitalize (c.word.take (kCandidateMaxBytes-1))
      else c.word.take (kCandidateMaxBytes-1)) := by
  have hfits := c.fits
  have hwhole : c.word.take (kCandidateMaxBytes-1) = c.word := List.take_of_length_le (by omega)
  refine ⟨(c, n), h, ?_⟩
  rw [hwhole]
  split
  · rename_i hcap
    exact Or.inr ⟨hcap.1, rfl⟩
  · exact Or.inl rfl

theorem commit_selected_traced (hs : Traced s) : Traced (s.commitSelectedCandidate env) := by
  unfold ImeLogic.commitSelectedCandidate
  dsimp only
  split
  · exact hs
  · rename_i c n hc
    apply commit_partial_traced
    · exact candidate_allows s c n _ hc
    · split
      · exact traced_emit env s _ _ space_allowed hs
      · exact hs

theorem commit_selected_empty (hi : Inv s) (hc : s.hasCandidates = true)
    (h : s.leavesKeys = false) : (s.commitSelectedCandidate env).display = [] := by
  have hlt := selected_lt s hc
  unfold ImeLogic.commitSelectedCandidate
  unfold ImeLogic.leavesKeys at h
  dsimp only
  generalize (if s.selected < s.candidates.length then s.selected else 0) = sel at h hlt ⊢
  split
  · rename_i hnone
    exact absurd (List.getElem?_eq_none_iff.mp hnone) (not_le.mpr hlt)
  · rename_i c n hsel
    rw [hsel] at h
    have hn := hi.candidates.prefixes _ (List.mem_of_getElem? hsel)
    split
    · have hq := (emit_commit_quiet env s .literal [space]).1
      have hl : (s.emitCommit env .literal [space]).keySeqLen = s.keySeqLen :=
        congrArg (fun b => b.2.2.1) hq
      have hk : (s.emitCommit env .literal [space]).keySeq = s.keySeq :=
        congrArg (fun b => b.2.1) hq
      apply commit_partial_keys
      · rwa [hl]
      · rwa [ImeLogic.keys, hl, hk]
    · exact commit_partial_keys env s _ _ n hn h

end Candidate

theorem label_utf8 (kc : Keycode) (mode : InputMode) (l : Bytes) (h : l ∈ multitapLabels kc mode) :
    ∃ c, l = utf8 c := by
  unfold multitapLabels at h
  split at h
  · cases mode <;> simp only [kSym2Cycle, List.mem_cons, List.not_mem_nil, or_false] at h <;>
      rcases h with rfl | rfl | rfl <;> exact ⟨_, rfl⟩
  · split at h
    · cases h
    · split at h <;> obtain ⟨c, -, rfl⟩ := List.mem_map.mp h <;> exact ⟨c, rfl⟩

theorem label_display (kc : Keycode) (idx : ℕ) (mode : InputMode)
    (h : idx < (multitapLabels kc mode).length) :
    multitapLabel kc idx mode =
      some (((multitapLabel kc idx mode).getD []).take kMaxDisplayBytes) := by
  obtain ⟨c, hc⟩ := label_utf8 kc mode _ (List.getElem_mem h)
  have hl := utf8_length c
  rw [multitapLabel, List.getElem?_eq_getElem h, Option.getD_some, hc, List.take_of_length_le]
  exact le_trans hl (by decide)

section Multitap

variable (env : Env) (s : ImeLogic)

theorem multitap_commit_traced (hs : Sourced s) :
    Traced (s.multitapCommit env) ∧ ¬ (s.multitapCommit env).multitapPending := by
  unfold ImeLogic.multitapCommit
  split
  · rename_i hp
    exact ⟨hs.traced, hp⟩
  · rename_i hp
    dsimp only
    generalize ht : (if s.display = [] then s else (s.didCommit s.display).log env
      (.commit (.multitap s.multitap.keycode s.multitap.slotIdx s.mode) s.display)) = t
    have htraced : Traced t := by
      rw [← ht]
      split
      · exact hs.traced
      · rename_i hd
        apply traced_commit env s _ _ _ hs.traced
        exact (hs.shown (not_not.mp hp)).resolve_left hd
    have hidle : ¬ t.multitapClear.multitapPending := fun h => h rfl
    have hclear : Traced t.multitapClear :=
      traced_of_idle t _ hidle htraced.picker rfl htraced
    split
    · refine ⟨traced_emit env _ _ _ space_allowed hclear, ?_⟩
      have hb := (emit_commit_quiet env t.multitapClear .literal [space]).1
      rwa [ImeLogic.multitapPending, show (t.multitapClear.emitCommit env .literal [space]).multitap =
        t.multitapClear.multitap from congrArg (fun b => b.2.2.2.2.1) hb]
    · exact ⟨hclear, hidle⟩

theorem multitap_commit_sourced (hs : Sourced s) : Sourced (s.multitapCommit env) := by
  obtain ⟨ht, hp⟩ := multitap_commit_traced env s hs
  exact ⟨ht, shown_of_idle _ hp⟩

theorem sourced_label (hs : Traced s) (m : MultiTapState) (style : PendingStyle)
    (hm : m.slotIdx < (multitapLabels m.keycode s.mode).length)
    (hk : s.mode ≠ .direct → m.keycode = mokyaKeySym2 ∨
      s.mode = .smartEn ∧ ∃ e, findKeyEntry m.keycode = some e ∧ e.digitSlots ≠ []) :
    Sourced { s with
      multitap := m
      display := ((multitapLabel m.keycode m.slotIdx s.mode).getD []).take kMaxDisplayBytes
      pendingStyle := style
      matchedPrefixBytes := 0 } :=
  ⟨⟨fun _ => hk, hs.picker, hs.log⟩, fun _ => Or.inr (label_display _ _ _ hm)⟩

theorem multitap_press_sourced (hi : Inv s) (hs : Traced s) (kc : Keycode) (n : ℕ)
    (nowMs : UInt32) (hkc : kc ≠ mokyaKeyNone) (hn : n = (multitapLabels kc s.mode).length)
    (hpos : 0 < n) (hshown : s.multitap.keycode = kc ∨ LabelShown s)
    (hkind : s.mode ≠ .direct → kc = mokyaKeySym2 ∨
      s.mode = .smartEn ∧ ∃ e, findKeyEntry kc = some e ∧ e.digitSlots ≠ []) :
    Sourced (s.multitapPress env kc n true nowMs) := by
  obtain ⟨-, hm, hk, hlt, hcount⟩ := press_label env s hi kc n s.multitap.lastMs hkc hn hpos
  have htraced : Traced (if s.multitap.keycode = kc then
        { s with multitap := { s.multitap with slotIdx := (s.multitap.slotIdx+1) % n } }
      else { s.multitapCommit env with multitap := ⟨kc, 0, n, true, s.multitap.lastMs⟩ }) := by
    split
    · exact ⟨hs.kind, hs.picker, hs.log⟩
    · rename_i hne
      obtain ⟨ht, -⟩ := multitap_commit_traced env s ⟨hs, hshown.resolve_left hne⟩
      refine ⟨fun _ hd => ?_, ht.picker, ht.log⟩
      have hmode : (s.multitapCommit env).mode = s.mode := (multitap_commit_spec env s hi).2.1
      simp only [hmode] at hd ⊢
      exact hkind hd
  unfold ImeLogic.multitapPress
  dsimp only
  generalize (if s.multitap.keycode = kc then
      { s with multitap := { s.multitap with slotIdx := (s.multitap.slotIdx+1) % n } }
    else { s.multitapCommit env with multitap := ⟨kc, 0, n, true, s.multitap.lastMs⟩ }) = t
    at hm hk hlt hcount htraced ⊢
  have hslot : t.multitap.slotIdx < (multitapLabels kc t.mode).length := by rw [hm, ← hn]; exact hlt
  rw [skip_missing_self kc t.mode n _ _ hslot]
  apply sourced_notify
  subst hk
  exact sourced_label t htraced { t.multitap with lastMs := nowMs } .inverted hslot (by rwa [hm])

end Multitap

end MokyaLora.Ime
