import MokyaLora.ImeProvenance

/-!
# Every commit of a run
-/

set_option autoImplicit false

namespace MokyaLora.Ime
open Lib.Fields Lib.Memory Lib.Schedule

section Smart

variable (env : Env) (s : ImeLogic)

theorem smart_idle (hs : Traced s) (hd : s.mode ≠ .direct) (kc : Keycode)
    (hkc : s.multitapPending → s.multitap.keycode = kc) (hne : kc ≠ mokyaKeySym2)
    (hdig : ∀ e, findKeyEntry kc = some e → s.mode = .smartEn → e.digitSlots = []) :
    ¬ s.multitapPending := by
  intro hp
  rcases hs.kind hp hd with hk | ⟨hm, e, he, hslots⟩
  · exact hne ((hkc hp).symm.trans hk)
  · exact hslots (hdig e (hkc hp ▸ he) hm)

theorem commit_selected_idle (hi : Inv s) (hs : Traced s) (hp : ¬ s.multitapPending) :
    Sourced (s.commitSelectedCandidate env) := by
  refine ⟨commit_selected_traced env s hs, shown_of_idle _ ?_⟩
  rwa [ImeLogic.multitapPending, (commit_selected_spec env s hi).2.2]

theorem smart_space_sourced (hi : Inv s) (hs : Traced s) (hp : ¬ s.multitapPending) :
    Sourced (s.smartSpace env).1 := by
  have hsrc : Sourced s := sourced_of_idle s s hp rfl hs
  unfold ImeLogic.smartSpace
  split
  · exact sourced_notify env _ (sourced_emit env s _ _ space_allowed hsrc)
  · split
    · split
      · exact sourced_keys_changed env (s.keyAppend 0x20 kHintAny) hp (traced_of_trace s _ rfl hs)
      · exact hsrc
    · apply sourced_notify
      apply sourced_emit _ _ _ _ space_allowed
      split
      · exact commit_selected_idle env s hi hs hp
      · split
        · exact sourced_of_idle s s.discardKeys hp rfl hs
        · exact hsrc

theorem smart_tab_sourced (hs : Sourced s) : Sourced (s.smartTab env).1 := by
  unfold ImeLogic.smartTab
  split
  · exact sourced_notify env _ (sourced_of_trace s _ rfl rfl hs)
  · exact hs

theorem smart_digit_sourced (hi : Inv s) (hs : Traced s) (kc : Keycode) (e : KeyEntry)
    (nowMs : UInt32) (he : findKeyEntry kc = some e) (hd : e.digitSlots ≠ [])
    (hm : s.mode = .smartEn) (hkc : s.multitapPending → s.multitap.keycode = kc) :
    Sourced (s.smartDigit env kc e nowMs).1 := by
  have hnone := (input_key e (find_key_entry kc e he).1).1
  rw [(find_key_entry kc e he).2] at hnone
  unfold ImeLogic.smartDigit
  dsimp only
  generalize ht : (if 0 < s.keySeqLen then
    if s.hasCandidates = true then s.commitSelectedCandidate env else s.discardKeys else s) = t
  have hspec : Inv t ∧ Traced t ∧ t.mode = s.mode ∧ t.multitap = s.multitap := by
    rw [← ht]
    split
    · split
      · obtain ⟨hci, hcm, hct⟩ := commit_selected_spec env s hi
        exact ⟨hci, commit_selected_traced env s hs, hcm, hct⟩
      · rename_i hc
        exact ⟨inv_discard s hi hm (by simpa using hc), traced_of_trace s _ rfl hs, rfl, rfl⟩
    · exact ⟨hi, hs, rfl, rfl⟩
  obtain ⟨hti, hts, htm, htt⟩ := hspec
  apply multitap_press_sourced env t hti hts kc _ nowMs hnone
  · rw [labels_of_entry kc e _ he, if_pos hd]
  · exact List.length_pos_iff.mpr hd
  · by_cases hp : s.multitapPending
    · exact Or.inl (by rw [htt, hkc hp])
    · exact Or.inr (shown_of_idle t (by rwa [ImeLogic.multitapPending, htt]))
  · exact fun _ => Or.inr ⟨htm.trans hm, e, he, hd⟩

theorem long_append_sourced (hs : Traced s) (hp : ¬ s.multitapPending) (slot : ℕ)
    (nowMs : UInt32) : Sourced (ImeLogic.smartLongPress.appendLong env s slot nowMs).1 := by
  unfold ImeLogic.smartLongPress.appendLong
  split
  · exact sourced_keys_changed env _ hp (traced_of_trace s _ rfl hs)
  · exact sourced_of_idle s s hp rfl hs

theorem long_press_sourced (hs : Traced s) (hp : ¬ s.multitapPending) (slot : ℕ) (e : KeyEntry)
    (nowMs : UInt32) : Sourced (s.smartLongPress env slot e nowMs).1 := by
  unfold ImeLogic.smartLongPress
  dsimp only
  split
  · split
    · exact sourced_keys_changed env _ hp (traced_of_trace s _ rfl hs)
    · exact long_append_sourced env s hs hp slot nowMs
  · exact long_append_sourced env s hs hp slot nowMs

theorem short_tap_sourced (hs : Traced s) (hp : ¬ s.multitapPending) (slot : ℕ) :
    Sourced (s.smartShortTap env slot).1 := by
  unfold ImeLogic.smartShortTap
  split
  · exact sourced_keys_changed env _ hp (traced_of_trace s _ rfl hs)
  · exact sourced_of_idle s s hp rfl hs

theorem handle_smart_sourced (hi : Inv s) (hs : Sourced s) (ev : KeyEvent)
    (hd : s.mode ≠ .direct) (hkc : s.multitapPending → s.multitap.keycode = ev.keycode) :
    Sourced (s.handleSmart env ev).1 := by
  have hidle := smart_idle s hs.traced hd ev.keycode hkc
  unfold ImeLogic.handleSmart
  split
  · rename_i hk
    apply smart_space_sourced env s hi hs.traced
    apply hidle
    · rw [hk]; decide
    · intro e he
      rw [hk] at he
      cases he
  · split
    · exact smart_tab_sourced env s hs
    · split
      · exact hs
      · rename_i slot hslot
        obtain ⟨-, e, hmem, he, hk⟩ := input_slot _ _ hslot
        have hentry : findKeyEntry ev.keycode = some e := by
          rw [findKeyEntry, hslot, Option.bind_some, he]
        have hne : ev.keycode ≠ mokyaKeySym2 := hk ▸ (input_key e hmem).2.1
        rw [he]
        dsimp only
        split
        · rename_i hdig
          exact smart_digit_sourced env s hi hs.traced _ e _ hentry hdig.2 hdig.1 hkc
        · rename_i hdig
          have hp : ¬ s.multitapPending := by
            apply hidle hne
            intro e' he' hm
            rw [hentry, Option.some.injEq] at he'
            by_contra hslots
            exact hdig ⟨hm, he' ▸ hslots⟩
          split
          · exact long_press_sourced env s hs.traced hp slot e _
          · exact short_tap_sourced env s hs.traced hp slot

end Smart

section Keys

variable (env : Env) (s : ImeLogic)

theorem handle_direct_sourced (hi : Inv s) (hs : Sourced s) (hd : s.mode = .direct)
    (ev : KeyEvent) : Sourced (s.handleDirect env ev).1 := by
  have hcommit := multitap_commit_sourced env s hs
  unfold ImeLogic.handleDirect
  split
  · exact sourced_notify env _ (sourced_emit env _ _ _ space_allowed hcommit)
  · split
    · exact sourced_notify env _ (sourced_emit env _ _ _ (literal_allows _ (by decide)) hcommit)
    · split
      · exact hs
      · rename_i e he
        obtain ⟨hmem, hk⟩ := find_key_entry _ e he
        split
        · exact hs
        · rename_i hz
          exact multitap_press_sourced env s hi hs.traced _ _ _ (hk ▸ (input_key e hmem).1)
            (labels_of_entry ev.keycode e s.mode he).symm (Nat.pos_of_ne_zero hz)
            (Or.inr hs.shown) (fun hne => absurd hd hne)

theorem sym1_allowed (mode : InputMode) : CommitSite.literal.Allows (match mode with
    | .smartZh => kSym1ZhShort
    | .smartEn => text [',', ' ']
    | .direct => kSym1EnShort) := by
  apply literal_allows
  cases mode <;> decide

theorem picker_zero : 0 < kSymPickerCells := by decide

theorem sourced_close (hs : Sourced s) :
    Sourced { s with symPickerOpen := false, symPickerSel := 0 } :=
  ⟨⟨hs.traced.kind, picker_zero, hs.traced.log⟩, hs.shown⟩

theorem handle_sym1_sourced (hs : Sourced s) (pressed : Bool) (nowMs : UInt32) :
    Sourced (s.handleSym1 env pressed nowMs).1 := by
  have hsame : ∀ sym1, Sourced { s with sym1 := sym1 } := fun _ => sourced_of_trace s _ rfl rfl hs
  have hup := hsame { s.sym1 with down := false }
  unfold ImeLogic.handleSym1
  split
  · split
    · exact hs
    · exact hsame _
  · split
    · exact hs
    · dsimp only
      split
      · exact hsame _
      · split
        · exact sourced_notify env _ (sourced_close _ hup)
        · apply sourced_notify
          exact sourced_emit env _ _ _ (sym1_allowed _) (multitap_commit_sourced env _ hup)

theorem handle_sym2_sourced (hi : Inv s) (hs : Sourced s) (nowMs : UInt32) :
    Sourced (s.handleSym2 env nowMs).1 := by
  unfold ImeLogic.handleSym2
  dsimp only
  generalize ht : (if s.multitap.keycode = mokyaKeySym2 then s else s.multitapCommit env) = t
  have hspec : Traced t ∧ t.mode = s.mode := by
    rw [← ht]
    split
    · exact ⟨hs.traced, rfl⟩
    · exact ⟨(multitap_commit_traced env s hs).1, (multitap_commit_spec env s hi).2.1⟩
  obtain ⟨hts, htm⟩ := hspec
  have hlabel : ∀ idx < (kSym2Cycle t.mode).length, ∀ m : MultiTapState,
      m.keycode = mokyaKeySym2 → m.slotIdx = idx → Sourced { t with
        multitap := m
        display := ((kSym2Cycle t.mode).getD idx []).take kMaxDisplayBytes
        pendingStyle := .inverted
        matchedPrefixBytes := 0 } := by
    intro idx hidx m hk hm
    subst hm
    have hsrc := sourced_label t hts m .inverted (by rwa [hk, sym2_labels])
      (fun _ => Or.inl hk)
    rw [hk, multitapLabel, sym2_labels] at hsrc
    rwa [List.getD_eq_getElem?_getD]
  rw [← htm]
  apply sourced_notify
  split
  · rename_i hk
    exact hlabel _ (Nat.mod_lt _ (sym2_cycle_pos _)) _ hk rfl
  · exact hlabel 0 (sym2_cycle_pos _) _ rfl rfl

theorem cycle_mode_sourced (hi : Inv s) (hs : Sourced s) : Sourced (s.cycleMode env) := by
  unfold ImeLogic.cycleMode
  dsimp only
  generalize ht : (if s.multitapPending then s.multitapCommit env
    else if s.hasCandidates = true then s.commitSelectedCandidate env else s) = t
  have hspec : Traced t ∧ ¬ t.multitapPending := by
    rw [← ht]
    split
    · exact multitap_commit_traced env s hs
    · rename_i hp
      split
      · refine ⟨commit_selected_traced env s hs.traced, ?_⟩
        rwa [ImeLogic.multitapPending, (commit_selected_spec env s hi).2.2]
      · exact ⟨hs.traced, hp⟩
  apply sourced_notify
  exact ⟨traced_of_idle t _ hspec.2 hspec.1.picker rfl hspec.1, shown_of_idle _ hspec.2⟩

theorem handle_dpad_sourced (hs : Sourced s) (dir : NavDir) : Sourced (s.handleDpad env dir).1 := by
  unfold ImeLogic.handleDpad
  split
  · cases dir with
    | left => exact sourced_notify env _ (sourced_of_trace s _ rfl rfl hs)
    | right => exact sourced_notify env _ (sourced_of_trace s _ rfl rfl hs)
    | up => exact hs
    | down => exact hs
  · exact sourced_log env s _ (fun _ _ => Event.noConfusion) hs

theorem handle_del_sourced (hs : Sourced s) : Sourced (s.handleDel env).1 := by
  unfold ImeLogic.handleDel
  split
  · have hidle : ¬ s.multitapClear.multitapPending := fun h => h rfl
    apply sourced_notify
    exact ⟨traced_of_idle s _ hidle hs.traced.picker rfl hs.traced, shown_of_idle _ hidle⟩
  · rename_i hp
    split
    · exact sourced_keys_changed env s.keyRemove hp (traced_of_trace s _ rfl hs.traced)
    · exact sourced_log env s _ (fun _ _ => Event.noConfusion) hs

/-- The only handler that may display keys over a pending label. -/
theorem handle_ok_sourced (hi : Inv s) (hs : Sourced s)
    (h : ¬ (s.hasCandidates = true ∧ s.multitapPending ∧ s.leavesKeys = true)) :
    Sourced (s.handleOk env).1 := by
  unfold ImeLogic.handleOk
  split
  · rename_i hc
    apply sourced_notify
    refine ⟨commit_selected_traced env s hs.traced, ?_⟩
    by_cases hp : s.multitapPending
    · have hleaves : s.leavesKeys = false := by
        rw [← Bool.not_eq_true]
        exact fun hl => h ⟨hc, hp, hl⟩
      exact fun _ => Or.inl (commit_selected_empty env s hi hc hleaves)
    · exact (commit_selected_idle env s hi hs.traced hp).shown
  · split
    · exact sourced_notify env _ (multitap_commit_sourced env s hs)
    · exact sourced_notify env _ (sourced_emit env s _ _ (literal_allows _ (by decide)) hs)

theorem picker_move_lt (sel : ℕ) (dir : NavDir) : ImeLogic.pickerMove sel dir < kSymPickerCells := by
  unfold ImeLogic.pickerMove
  cases dir <;> exact Nat.mod_lt _ (by decide)

theorem picker_cell (sel : ℕ) (h : sel < kSymPickerCells) :
    CommitSite.Allows (.picker sel) (kSymPickerCell.getD sel []) := by
  have hl : sel < kSymPickerCell.length := h
  change kSymPickerCell[sel]? = some _
  rw [List.getD_eq_getElem?_getD, List.getElem?_eq_getElem hl, Option.getD_some]

theorem handle_picker_sourced (hs : Sourced s) (kc : Keycode) :
    Sourced (s.handlePicker env kc).1 := by
  unfold ImeLogic.handlePicker
  split
  · exact sourced_notify env _
      ⟨⟨hs.traced.kind, picker_move_lt _ _, hs.traced.log⟩, hs.shown⟩
  · dsimp only
    split
    · apply sourced_notify
      exact sourced_emit env _ _ _ (picker_cell _ hs.traced.picker) (sourced_close s hs)
    · exact sourced_notify env _ (sourced_close s hs)

theorem handle_input_sourced (hi : Inv s) (hs : Sourced s) (ev : KeyEvent) :
    Sourced (s.handleInput env ev).1 := by
  unfold ImeLogic.handleInput
  dsimp only
  generalize ht : (if s.multitapPending ∧ s.multitap.keycode ≠ ev.keycode then
    s.multitapCommit env else s) = t
  have hspec : Inv t ∧ Sourced t ∧ (t.multitapPending → t.multitap.keycode = ev.keycode) := by
    rw [← ht]
    split
    · exact ⟨inv_multitap_commit env s hi, multitap_commit_sourced env s hs,
        fun hp => absurd hp (multitap_commit_traced env s hs).2⟩
    · rename_i hc
      refine ⟨hi, hs, fun hp => ?_⟩
      by_contra hne
      exact hc ⟨hp, hne⟩
  obtain ⟨hti, hts, hkc⟩ := hspec
  split
  · rename_i hm
    exact handle_direct_sourced env t hti hts hm ev
  · rename_i hm
    exact handle_smart_sourced env t hti hts ev hm hkc

theorem dispatch_sourced (hi : Inv s) (hs : Sourced s) (ev : KeyEvent)
    (hk : KeepsLabel s (.processKey ev)) : Sourced (s.dispatchKey env ev).1 := by
  unfold ImeLogic.dispatchKey
  split
  · exact hs
  split
  · exact handle_sym1_sourced env s hs _ _
  split
  · exact hs
  rename_i hpressed
  split
  · exact handle_picker_sourced env s hs _
  rename_i hclosed
  split
  · exact cycle_mode_sourced env s hi hs
  split
  · exact handle_del_sourced env s hs
  split
  · exact handle_dpad_sourced env s hs _
  split
  · rename_i hok
    apply handle_ok_sourced env s hi hs
    intro hbad
    exact hk ⟨hok, not_not.mp hpressed, by simpa using hclosed, hbad⟩
  split
  · exact handle_sym2_sourced env s hi hs _
  · exact handle_input_sourced env s hi hs ev

theorem tick_sourced (hs : Sourced s) (nowMs : UInt32) :
    Sourced (s.tick env nowMs).1 := by
  have hstamp : Sourced (s.stampNow nowMs) := sourced_of_trace s _ rfl rfl hs
  have hexpire : Sourced ((s.stampNow nowMs).expireMultitap env nowMs).1 := by
    unfold ImeLogic.expireMultitap
    split
    · exact multitap_commit_sourced env _ hstamp
    · exact hstamp
  generalize hu : (s.stampNow nowMs).expireMultitap env nowMs = u at hexpire
  have hopen : Sourced (u.1.openPicker nowMs).1 := by
    unfold ImeLogic.openPicker
    split
    · exact ⟨⟨hexpire.traced.kind, picker_zero, hexpire.traced.log⟩, hexpire.shown⟩
    · exact hexpire
  have hlocked : Sourced ((u.1.openPicker nowMs).1.lockCycle nowMs) := by
    unfold ImeLogic.lockCycle
    split
    · exact sourced_of_trace (u.1.openPicker nowMs).1 _ rfl rfl hopen
    · exact hopen
  unfold ImeLogic.tick
  dsimp only
  rw [hu]
  split
  · exact sourced_notify env _ hlocked
  · exact hlocked

theorem abort_sourced (hs : Sourced s) : Sourced (s.abort env) := by
  have hidle : ¬ s.aborted.multitapPending := fun h => h rfl
  have haborted : Sourced s.aborted :=
    ⟨traced_of_idle s _ hidle picker_zero rfl hs.traced, shown_of_idle _ hidle⟩
  unfold ImeLogic.abort
  split
  · exact sourced_notify env _ haborted
  · exact haborted

theorem apply_sourced (hi : Inv s) (hs : Sourced s) (c : Call) (hk : KeepsLabel s c) :
    Sourced (s.apply env c) := by
  cases c with
  | processKey ev =>
    exact dispatch_sourced env (s.stampNow ev.nowMs) (inv_stamp s hi _)
      (sourced_of_trace s _ rfl rfl hs) ev hk
  | tick nowMs => exact tick_sourced env s hs nowMs
  | abort => exact abort_sourced env s hs
  | setSelected idx =>
    unfold ImeLogic.apply ImeLogic.setSelected
    dsimp only
    split
    · exact hs
    · exact sourced_notify env _ (sourced_of_trace s _ rfl rfl hs)
  | setTextContext prev =>
    unfold ImeLogic.apply ImeLogic.setTextContext
    dsimp only
    split <;> exact sourced_of_trace s _ rfl rfl hs
  | loadLru buf => exact sourced_of_trace s _ rfl rfl hs

end Keys

theorem sourced_init : Sourced .init := by
  have hidle : ¬ ImeLogic.init.multitapPending := fun h => h rfl
  exact ⟨⟨fun h => absurd h hidle, by decide, by intro site str h; cases h⟩, shown_of_idle _ hidle⟩

/-- Whatever the dictionaries return, a run without an `OK` that commits a
candidate and leaves keys behind under a pending multi-tap only commits literals,
whole candidates, cells of the picker and labels of the pending slot. -/
theorem commit_provenance (env : Env) (calls : List Call)
    (hk : Along (callStep env) KeepsLabel .init calls) :
    ∀ site str, .commit site str ∈ (ImeLogic.run env calls).events → site.Allows str := by
  have hrun : Inv (.run env calls) ∧ Sourced (.run env calls) := by
    apply exec_invariant (callStep env) KeepsLabel (fun s => Inv s ∧ Sourced s) _ calls
      ImeLogic.init _ ⟨inv_init, sourced_init⟩ hk (exec_run env calls)
    intro s c t hs hc ht
    obtain rfl := Option.some.inj ht
    exact ⟨inv_apply env s hs.1 c, apply_sourced env s hs.1 hs.2 c hc⟩
  exact hrun.2.traced.log

def oneWordEnv : Env where
  zhSearcher := (TrieSearcher.loadFromMemory
    ([0x4D, 0x49, 0x45, 0x44]++le16 2++le16 0++le32 1++le32 24++le32 0++le32 0++[1, 0x21])
    (le16 1++le16 100++[1, 3]++utf8 '八')).map TrieSearch.ofDictionary
  enSearcher := none
  compositionSearcher := none
  listener := true

def press (kc : Keycode) (nowMs : UInt32) : Call := .processKey ⟨kc, true, nowMs, 0⟩

/-- ㄅ and ㄧ are typed, punctuation is pending over the candidate 八, `OK` commits
八, and the time runs out. -/
def okOverPending : List Call :=
  [press 0x01 0, press 0x0A 1, press mokyaKeySym2 2, press mokyaKeyOk 3, .tick 900]

/-- The key left behind is committed in place of the full stop. -/
theorem composition_committed :
    .commit (.multitap mokyaKeySym2 0 .smartZh) (text ['ㄧ', 'ㄛ']) ∈
      (ImeLogic.run oneWordEnv okOverPending).events ∧
    ¬ CommitSite.Allows (.multitap mokyaKeySym2 0 .smartZh) (text ['ㄧ', 'ㄛ']) :=
  ⟨by decide +kernel, by simp only [CommitSite.Allows]; decide +kernel⟩

/-- ㄅ and ㄧ are typed, and the time of the punctuation runs out before `OK`. -/
def okAfterPending : List Call :=
  [press 0x01 0, press 0x0A 1, press mokyaKeySym2 2, .tick 900, press mokyaKeyOk 901]

theorem punctuation_then_candidate :
    .commit (.multitap mokyaKeySym2 0 .smartZh) (utf8 '。') ∈
      (ImeLogic.run oneWordEnv okAfterPending).events ∧
    CommitSite.Allows (.multitap mokyaKeySym2 0 .smartZh) (utf8 '。') := by
  have hmem : .commit (.multitap mokyaKeySym2 0 .smartZh) (utf8 '。') ∈
      (ImeLogic.run oneWordEnv okAfterPending).events := by decide +kernel
  exact ⟨hmem, commit_provenance oneWordEnv okAfterPending (by decide +kernel) _ _ hmem⟩

end MokyaLora.Ime
