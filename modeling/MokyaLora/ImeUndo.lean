import MokyaLora.ImeConsume
import MokyaLora.ImePending
import MokyaLora.ImeReach

/-!
# `DEL` takes a tap back

What a search shows is a function of the mode, the keys and their hints. A tap and
a `DEL` leave these as they were, so they leave what is shown for them.
-/

set_option autoImplicit false

namespace MokyaLora.Ime
open Lib.Fields Lib.Memory Lib.Schedule

def ImeLogic.matchedView (s : ImeLogic) : PendingView × ℕ := (s.pendingView, s.matchedPrefixKeys)

section Congr

variable {env : Env} {s t : ImeLogic}

theorem rebuild_from_congr (hm : t.mode = s.mode) (hp : t.matchedPrefixKeys = s.matchedPrefixKeys)
    (i : ℕ) (ks : List (UInt8 × UInt8)) (acc : Bytes × ℕ) :
    t.rebuildFrom i ks acc = s.rebuildFrom i ks acc := by
  induction ks generalizing i acc with
  | nil => rfl
  | cons k ks ih => rw [ImeLogic.rebuildFrom, ImeLogic.rebuildFrom, ih, hm, hp]

theorem rebuild_view_congr (hm : t.mode = s.mode) (hk : t.keys = s.keys) (hh : t.hints = s.hints)
    (hp : t.matchedPrefixKeys = s.matchedPrefixKeys) :
    t.rebuildDisplaySmart.matchedView = s.rebuildDisplaySmart.matchedView := by
  simp only [ImeLogic.rebuildDisplaySmart, ImeLogic.matchedView, ImeLogic.pendingView,
    rebuild_from_congr hm hp, hk, hh, hp, length_of_keys hk]

theorem prepend_view : s.prependLruCandidates.matchedView = s.matchedView := by
  unfold ImeLogic.prependLruCandidates
  split
  · rfl
  · dsimp only
    split <;> rfl

theorem v4_matched_congr (cs : CompositionSearch) (hk : t.keys = s.keys) (hh : t.hints = s.hints)
    (hp : t.matchedPrefixKeys = s.matchedPrefixKeys) :
    (t.runSearchV4 cs).matchedPrefixKeys = (s.runSearchV4 cs).matchedPrefixKeys := by
  have hpos : t.positions cs = s.positions cs := by
    rw [ImeLogic.positions, ImeLogic.positions, hk]
  unfold ImeLogic.runSearchV4
  rw [hpos, hk, hh, length_of_keys hk]
  dsimp only
  split
  · exact hp
  · split <;> rfl

theorem legacy_view_congr (hm : t.mode = s.mode) (hk : t.keys = s.keys) (hh : t.hints = s.hints)
    (hp : t.matchedPrefixKeys = s.matchedPrefixKeys) :
    (t.runSearchV2Legacy env).matchedView = (s.runSearchV2Legacy env).matchedView := by
  have ha : t.activeSearcher env = s.activeSearcher env := by
    rw [ImeLogic.activeSearcher, ImeLogic.activeSearcher, hm]
  unfold ImeLogic.runSearchV2Legacy
  rw [ha]
  cases s.activeSearcher env with
  | none => exact rebuild_view_congr hm hk hh hp
  | some searcher =>
    rw [hk]
    exact rebuild_view_congr hm hk hh rfl

theorem search_view_congr (hm : t.mode = s.mode) (hk : t.keys = s.keys) (hh : t.hints = s.hints) :
    (t.runSearch env).matchedView = (s.runSearch env).matchedView := by
  have hn : t.searchStart.keySeqLen = s.searchStart.keySeqLen := length_of_keys hk
  have hv : t.searchStart.v4Searcher env = s.searchStart.v4Searcher env := by
    rw [ImeLogic.v4Searcher, ImeLogic.v4Searcher,
      show t.searchStart.mode = s.searchStart.mode from hm]
  unfold ImeLogic.runSearch
  dsimp only
  rw [hn, hv]
  split
  · exact rebuild_view_congr hm hk hh rfl
  · split
    · rename_i cs _
      obtain ⟨hms, hks, hhs, -⟩ := base_keys (prepend_quiet (s.searchStart.runSearchV4 cs)).1
      obtain ⟨hmt, hkt, hht, -⟩ := base_keys (prepend_quiet (t.searchStart.runSearchV4 cs)).1
      obtain ⟨hms', hks', hhs', -⟩ := base_keys (run_search_v4_quiet s.searchStart cs).1
      obtain ⟨hmt', hkt', hht', -⟩ := base_keys (run_search_v4_quiet t.searchStart cs).1
      apply rebuild_view_congr
      · rw [hmt, hmt', hms, hms']
        exact hm
      · rw [hkt, hkt', hks, hks']
        exact hk
      · rw [hht, hht', hhs, hhs']
        exact hh
      · have hpt : (t.searchStart.runSearchV4 cs).prependLruCandidates.matchedPrefixKeys =
            (t.searchStart.runSearchV4 cs).matchedPrefixKeys := congrArg Prod.snd prepend_view
        have hps : (s.searchStart.runSearchV4 cs).prependLruCandidates.matchedPrefixKeys =
            (s.searchStart.runSearchV4 cs).matchedPrefixKeys := congrArg Prod.snd prepend_view
        rw [hpt, hps]
        exact v4_matched_congr cs hk hh rfl
    · rw [prepend_view, prepend_view]
      exact legacy_view_congr hm hk hh rfl

theorem run_search_selected (u : ImeLogic) : (u.runSearch env).selected = 0 := by
  have hprepend : ∀ v : ImeLogic, v.selected = 0 → v.prependLruCandidates.selected = 0 := by
    intro v hv
    obtain ⟨-, -, hsame | hzero⟩ := prepend_quiet v
    · rw [hsame, hv]
    · exact hzero
  unfold ImeLogic.runSearch
  dsimp only
  split
  · rfl
  · split
    · exact hprepend _ (run_search_v4_quiet u.searchStart _).2
    · apply hprepend
      unfold ImeLogic.runSearchV2Legacy
      split <;> rfl

end Congr

/-- The number of matched keys is the one that a fresh search would record. -/
def Matched (env : Env) (s : ImeLogic) : Prop :=
  s.matchedPrefixKeys = (s.runSearch env).matchedPrefixKeys

namespace ImeLogic

def keyed (s : ImeLogic) : InputMode × Bytes × Bytes × ℕ :=
  (s.mode, s.keys, s.hints, s.matchedPrefixKeys)

end ImeLogic

section Matched

variable (env : Env) (s : ImeLogic)

theorem matched_of_keyed {s t : ImeLogic} (h : t.keyed = s.keyed) (hs : Matched env s) :
    Matched env t := by
  simp only [ImeLogic.keyed, Prod.mk.injEq] at h
  obtain ⟨hm, hk, hh, hp⟩ := h
  rw [Matched, hp, hs]
  exact (congrArg Prod.snd (search_view_congr hm hk hh)).symm

theorem matched_search : Matched env (s.runSearch env) := by
  obtain ⟨hm, hk, hh, -⟩ := base_keys (run_search_base env s)
  exact (congrArg Prod.snd (search_view_congr hm hk hh)).symm

theorem matched_cleared (hk : s.keySeqLen = 0) (hp : s.matchedPrefixKeys = 0) :
    Matched env s := by
  rw [Matched, ImeLogic.runSearch, if_pos (show s.searchStart.keySeqLen = 0 from hk), hp]
  rfl

theorem Noted.keyed {s t : ImeLogic} (h : Noted s t) : t.keyed = s.keyed :=
  h.keeps ImeLogic.keyed (fun _ _ _ => rfl)

theorem log_keyed (e : Event) : (s.log env e).keyed = s.keyed := (log_noted env s e).keyed

theorem emit_notify_keyed (site : CommitSite) (str : Bytes) :
    ((s.emitCommit env site str).notifyChanged env).keyed = s.keyed :=
  ((emit_noted env s site str).then (log_noted env _ _)).keyed

theorem multitap_commit_keyed : (s.multitapCommit env).keyed = s.keyed := by
  unfold ImeLogic.multitapCommit
  dsimp only
  generalize ht : (if s.display = [] then s else (s.didCommit s.display).log env
    (.commit (.multitap s.multitap.keycode s.multitap.slotIdx s.mode) s.display)) = t
  have hshown : t.multitapClear.keyed = s.keyed := by
    show t.keyed = s.keyed
    rw [← ht]
    split
    · rfl
    · exact ((did_commit_noted s s.display).then (log_noted env _ _)).keyed
  split
  · rfl
  · split
    · rw [(emit_noted env _ _ _).keyed, hshown]
    · exact hshown

theorem multitap_press_keyed (kc : Keycode) (n : ℕ) (inverted : Bool) (nowMs : UInt32) :
    (s.multitapPress env kc n inverted nowMs).keyed = s.keyed := by
  have hlabel : ∀ (t : ImeLogic) (m : MultiTapState) (d : Bytes) (style : PendingStyle),
      t.keyed = s.keyed → ({ t with
        multitap := m, display := d, pendingStyle := style, matchedPrefixBytes := 0 } :
        ImeLogic).keyed = s.keyed := fun _ _ _ _ h => h
  unfold ImeLogic.multitapPress
  dsimp only
  rw [ImeLogic.notifyChanged, log_keyed]
  apply hlabel
  split
  · rfl
  · exact multitap_commit_keyed env s

theorem keys_changed_matched : Matched env (s.keysChanged env) :=
  matched_of_keyed env (log_keyed env _ _) (matched_search env s)

theorem commit_selected_matched (h : Matched env s) :
    Matched env (s.commitSelectedCandidate env) := by
  generalize hsel : (if s.selected < s.candidates.length then s.selected else 0) = i
  cases hp : s.candidates[i]? with
  | none =>
    have hsame : s.commitSelectedCandidate env = s := by
      rw [ImeLogic.commitSelectedCandidate]
      dsimp only
      rw [hsel, hp]
    rwa [hsame]
  | some p =>
    obtain ⟨t, -, -, ht⟩ := commit_selected_search env s i p hsel hp
    rw [ht]
    exact matched_search env _

theorem discard_matched : Matched env s.discardKeys := matched_cleared env _ rfl rfl

theorem smart_space_matched (h : Matched env s) : Matched env (s.smartSpace env).1 := by
  unfold ImeLogic.smartSpace
  split
  · exact matched_of_keyed env (emit_notify_keyed env s _ _) h
  · split
    · split
      · exact keys_changed_matched env _
      · exact h
    · apply matched_of_keyed env (emit_notify_keyed env _ _ _)
      split
      · exact commit_selected_matched env s h
      · split
        · exact discard_matched env s
        · exact h

theorem smart_tab_matched (h : Matched env s) : Matched env (s.smartTab env).1 := by
  unfold ImeLogic.smartTab
  split
  · exact matched_of_keyed env (log_keyed env { s with selected := _ } _) h
  · exact h

theorem handle_smart_matched (h : Matched env s) (ev : KeyEvent) :
    Matched env (s.handleSmart env ev).1 := by
  unfold ImeLogic.handleSmart
  split
  · exact smart_space_matched env s h
  split
  · exact smart_tab_matched env s h
  split
  · exact h
  split
  · exact h
  split
  · apply matched_of_keyed env (multitap_press_keyed env _ _ _ _ _)
    split
    · split
      · exact commit_selected_matched env s h
      · exact discard_matched env s
    · exact h
  split
  · have happend : ∀ slot nowMs, Matched env (ImeLogic.smartLongPress.appendLong env s slot nowMs).1 := by
      intro slot nowMs
      unfold ImeLogic.smartLongPress.appendLong
      split
      · exact keys_changed_matched env _
      · exact h
    unfold ImeLogic.smartLongPress
    dsimp only
    split
    · split
      · exact keys_changed_matched env _
      · exact happend _ _
    · exact happend _ _
  · unfold ImeLogic.smartShortTap
    split
    · exact keys_changed_matched env _
    · exact h

theorem handle_direct_matched (h : Matched env s) (ev : KeyEvent) :
    Matched env (s.handleDirect env ev).1 := by
  have hspoken := matched_of_keyed env (multitap_commit_keyed env s) h
  unfold ImeLogic.handleDirect
  split
  · exact matched_of_keyed env (emit_notify_keyed env _ _ _) hspoken
  split
  · exact matched_of_keyed env (emit_notify_keyed env _ _ _) hspoken
  split
  · exact h
  split
  · exact h
  · exact matched_of_keyed env (multitap_press_keyed env _ _ _ _ _) h

theorem handle_input_matched (h : Matched env s) (ev : KeyEvent) :
    Matched env (s.handleInput env ev).1 := by
  unfold ImeLogic.handleInput
  dsimp only
  generalize ht : (if s.multitapPending ∧ s.multitap.keycode ≠ ev.keycode then
    s.multitapCommit env else s) = t
  have hspoken : Matched env t := by
    rw [← ht]
    split
    · exact matched_of_keyed env (multitap_commit_keyed env s) h
    · exact h
  split
  · exact handle_direct_matched env t hspoken ev
  · exact handle_smart_matched env t hspoken ev

theorem handle_sym1_matched (h : Matched env s) (pressed : Bool) (nowMs : UInt32) :
    Matched env (s.handleSym1 env pressed nowMs).1 := by
  have hset : ∀ t : ImeLogic, t.keyed = s.keyed → Matched env t :=
    fun t ht => matched_of_keyed env ht h
  unfold ImeLogic.handleSym1
  split
  · split
    · exact h
    · exact hset _ rfl
  split
  · exact h
  dsimp only
  split
  · exact hset _ rfl
  split
  · exact matched_of_keyed env (log_keyed env _ _) (hset _ rfl)
  · apply matched_of_keyed env (emit_notify_keyed env _ _ _)
    exact matched_of_keyed env (multitap_commit_keyed env _) (hset _ rfl)

theorem handle_sym2_matched (h : Matched env s) (nowMs : UInt32) :
    Matched env (s.handleSym2 env nowMs).1 := by
  unfold ImeLogic.handleSym2
  dsimp only
  generalize ht : (if s.multitap.keycode = mokyaKeySym2 then s else s.multitapCommit env) = t
  have hspoken : Matched env t := by
    rw [← ht]
    split
    · exact h
    · exact matched_of_keyed env (multitap_commit_keyed env s) h
  apply matched_of_keyed env (log_keyed env _ _)
  split
  · exact matched_of_keyed env (show _ = t.keyed from rfl) hspoken
  · exact matched_of_keyed env (show _ = t.keyed from rfl) hspoken

theorem cycle_mode_matched : Matched env (s.cycleMode env) :=
  matched_of_keyed env (log_keyed env _ _) (matched_cleared env _ rfl rfl)

theorem picker_matched (h : Matched env s) (kc : Keycode) :
    Matched env (s.handlePicker env kc).1 := by
  have hset : ∀ t : ImeLogic, t.keyed = s.keyed → Matched env t :=
    fun t ht => matched_of_keyed env ht h
  unfold ImeLogic.handlePicker
  split
  · exact matched_of_keyed env (log_keyed env _ _) (hset _ rfl)
  · dsimp only
    split
    · exact matched_of_keyed env (emit_notify_keyed env _ _ _) (hset _ rfl)
    · exact matched_of_keyed env (log_keyed env _ _) (hset _ rfl)

theorem del_matched (h : Matched env s) : Matched env (s.handleDel env).1 := by
  unfold ImeLogic.handleDel
  split
  · exact matched_of_keyed env (log_keyed env _ _)
      (matched_of_keyed env (show _ = s.keyed from rfl) h)
  · split
    · exact keys_changed_matched env _
    · exact matched_of_keyed env (log_keyed env _ _) h

theorem dpad_matched (h : Matched env s) (dir : NavDir) : Matched env (s.handleDpad env dir).1 := by
  have hset : ∀ t : ImeLogic, t.keyed = s.keyed → Matched env t :=
    fun t ht => matched_of_keyed env ht h
  unfold ImeLogic.handleDpad
  split
  · cases dir with
    | left => exact matched_of_keyed env (log_keyed env _ _) (hset _ rfl)
    | right => exact matched_of_keyed env (log_keyed env _ _) (hset _ rfl)
    | up => exact h
    | down => exact h
  · exact matched_of_keyed env (log_keyed env _ _) h

theorem ok_matched (h : Matched env s) : Matched env (s.handleOk env).1 := by
  unfold ImeLogic.handleOk
  split
  · exact matched_of_keyed env (log_keyed env _ _) (commit_selected_matched env s h)
  · split
    · exact matched_of_keyed env (log_keyed env _ _)
        (matched_of_keyed env (multitap_commit_keyed env s) h)
    · exact matched_of_keyed env (emit_notify_keyed env _ _ _) h

theorem dispatch_matched (h : Matched env s) (ev : KeyEvent) :
    Matched env (s.dispatchKey env ev).1 := by
  apply dispatch_rule env s ev (fun r => Matched env r.1)
  case ignored => exact fun _ => h
  case sym1 => exact fun _ _ => handle_sym1_matched env s h _ _
  case picker => exact fun _ => picker_matched env s h _
  case mode => exact fun _ _ => cycle_mode_matched env s
  case del => exact fun _ _ => del_matched env s h
  case nav => exact fun _ dir _ => dpad_matched env s h dir
  case ok => exact fun _ _ => ok_matched env s h
  case sym2 => exact fun _ _ => handle_sym2_matched env s h _
  case input => exact fun _ _ => handle_input_matched env s h ev

theorem tick_matched (h : Matched env s) (nowMs : UInt32) : Matched env (s.tick env nowMs).1 := by
  have hexpire : Matched env ((s.stampNow nowMs).expireMultitap env nowMs).1 := by
    have hstamp : Matched env (s.stampNow nowMs) := matched_of_keyed env (show _ = s.keyed from rfl) h
    unfold ImeLogic.expireMultitap
    split
    · exact matched_of_keyed env (multitap_commit_keyed env _) hstamp
    · exact hstamp
  generalize hu : (s.stampNow nowMs).expireMultitap env nowMs = u at hexpire
  have hopen : (u.1.openPicker nowMs).1.keyed = u.1.keyed := by
    unfold ImeLogic.openPicker
    split <;> rfl
  have hlock : ((u.1.openPicker nowMs).1.lockCycle nowMs).keyed = u.1.keyed := by
    unfold ImeLogic.lockCycle
    split <;> exact hopen
  have hlocked := matched_of_keyed env hlock hexpire
  unfold ImeLogic.tick
  dsimp only
  rw [hu]
  split
  · exact matched_of_keyed env (log_keyed env _ _) hlocked
  · exact hlocked

theorem apply_matched (h : Matched env s) (c : Call) : Matched env (s.apply env c) := by
  have hset : ∀ t : ImeLogic, t.keyed = s.keyed → Matched env t :=
    fun t ht => matched_of_keyed env ht h
  cases c with
  | processKey ev => exact dispatch_matched env (s.stampNow ev.nowMs) (hset _ rfl) ev
  | tick nowMs => exact tick_matched env s h nowMs
  | abort =>
    have haborted : Matched env s.aborted := matched_cleared env _ rfl rfl
    unfold ImeLogic.apply ImeLogic.abort
    dsimp only
    split
    · exact matched_of_keyed env (log_keyed env _ _) haborted
    · exact haborted
  | setSelected idx =>
    unfold ImeLogic.apply ImeLogic.setSelected
    dsimp only
    split
    · exact h
    · exact matched_of_keyed env (log_keyed env _ _) (hset _ rfl)
  | setTextContext prev =>
    unfold ImeLogic.apply ImeLogic.setTextContext
    dsimp only
    split <;> exact hset _ rfl
  | loadLru buf => exact hset _ rfl

end Matched

/-- Where no label is pending, the view is that of a fresh search, or blank. -/
def ViewFresh (env : Env) (s : ImeLogic) : Prop :=
  ¬ s.multitapPending → s.pendingView = (s.runSearch env).pendingView ∨ s.Blank

section ViewFresh

variable {env : Env} {s t : ImeLogic}

theorem fresh_of_face (h : t.face = s.face) (hs : ViewFresh env s) : ViewFresh env t := by
  intro hp
  have hv : t.pendingView = s.pendingView := congrArg (fun f => f.2.1) h
  have hc := core_of_face h
  simp only [ImeLogic.core, Prod.mk.injEq] at hc
  rcases hs (fun hp' => hp ((pending_of_face h).mpr hp')) with hfresh | hblank
  · left
    rw [hv, hfresh]
    exact (congrArg Prod.fst (search_view_congr hc.1 hc.2.1 hc.2.2.1)).symm
  · exact .inr (blank_of_face h hblank)

theorem fresh_search (u : ImeLogic) : ViewFresh env (u.runSearch env) := by
  obtain ⟨hm, hk, hh, -⟩ := base_keys (run_search_base env u)
  exact fun _ => .inl (congrArg Prod.fst (search_view_congr hm hk hh)).symm

theorem fresh_outcome {committed dropped : Prop} (hs : ViewFresh env s)
    (h : Outcome env s t committed dropped) : ViewFresh env t := by
  cases h with
  | shown h =>
    cases h with
    | same face lru why => exact fresh_of_face face hs
    | moved h =>
      cases h with
      | searched u ready face cache lru => exact fresh_of_face face (fresh_search u)
      | cleared keys candidates blank lru => exact fun _ => .inr blank
    | labelled u under h => exact fun hp => absurd h.pending hp
  | dropped h why => exact fun _ => .inr h.blank

theorem fresh_apply (hi : Inv s) (hs : ViewFresh env s) (c : Call) :
    ViewFresh env (s.apply env c) := by
  cases c with
  | loadLru buf => exact fresh_of_face (show _ = s.face from rfl) hs
  | _ => exact fresh_outcome hs (apply_outcome env s hi _ (fun _ => Call.noConfusion))

end ViewFresh

/-- In every reachable state the matched keys and, where no label is pending, the
view are those of a fresh search, or the view is blank. -/
theorem run_matched (env : Env) (calls : List Call) :
    Matched env (ImeLogic.run env calls) ∧ ViewFresh env (ImeLogic.run env calls) := by
  have hrun : Inv (.run env calls) ∧ Matched env (.run env calls) ∧
      ViewFresh env (.run env calls) := by
    have hinit : Inv .init ∧ Matched env .init ∧ ViewFresh env .init :=
      ⟨inv_init, matched_cleared env _ rfl rfl, fun _ => .inr ⟨rfl, rfl, rfl⟩⟩
    apply exec_invariant (callStep env) (fun _ _ => True)
      (fun s => Inv s ∧ Matched env s ∧ ViewFresh env s) _ calls ImeLogic.init _ hinit
      (along_of_forall _ _ (fun _ _ => trivial) _ _) (exec_run env calls)
    intro s c t hs _ ht
    exact Option.some.inj ht ▸
      ⟨inv_apply env s hs.1 c, apply_matched env s hs.2.1 c, fresh_apply hs.1 hs.2.2 c⟩
  exact hrun.2

section Undo

variable (env : Env) (s : ImeLogic)

theorem key_remove_bytes (h : 0 < s.keySeqLen) :
    s.keyRemove.keys = s.keys.dropLast ∧ s.keyRemove.hints = s.hints.dropLast := by
  obtain ⟨n, hn⟩ := Nat.exists_eq_succ_of_ne_zero (Nat.ne_of_gt h)
  simp only [ImeLogic.keyRemove, ImeLogic.keys, ImeLogic.hints]
  rw [bytes_store _ _ _ _ (le_refl _), hn, Nat.succ_sub_one, bytes_succ, bytes_succ,
    List.dropLast_concat, List.dropLast_concat]
  exact ⟨rfl, rfl⟩

theorem dispatch_del (ev : KeyEvent) (hk : ev.keycode = mokyaKeyDel) (hp : ev.pressed = true)
    (ho : s.symPickerOpen = false) : s.dispatchKey env ev = s.handleDel env := by
  have hspecial : ¬ (mokyaKeyDel = mokyaKeyBack ∨ mokyaKeyDel = mokyaKeyNone ∨
      mokyaKeyLimit ≤ mokyaKeyDel) := by decide
  have hsym1 : mokyaKeyDel ≠ mokyaKeySym1 := by decide
  have hmode : mokyaKeyDel ≠ mokyaKeyMode := by decide
  rw [ImeLogic.dispatchKey, hk, if_neg hspecial, if_neg hsym1, hp, ho, if_neg (by simp),
    if_neg (by simp), if_neg hmode, if_pos rfl]

theorem releases_quiet (slot : ℕ) (releases : List KeyEvent)
    (h : ∀ r ∈ releases, keycodeToInputSlot r.keycode = some slot ∧ r.pressed = false) :
    let t := (releases.map Call.processKey).foldl (fun s c => s.apply env c) s
    t.base = s.base ∧ t.lru = s.lru ∧ t.symPickerOpen = s.symPickerOpen := by
  induction releases generalizing s with
  | nil => exact ⟨rfl, rfl, rfl⟩
  | cons r releases ih =>
    obtain ⟨hslot, hreleased⟩ := h r (by simp)
    have hstep : s.apply env (.processKey r) = s.stampNow r.nowMs :=
      dispatch_release env s r slot hslot hreleased
    rw [List.map_cons, List.foldl_cons, hstep]
    exact ih (s.stampNow r.nowMs) (fun q hq => h q (List.mem_cons_of_mem _ hq))

theorem tap_released (slot : ℕ) (releases : List KeyEvent)
    (h : ∀ r ∈ releases, keycodeToInputSlot r.keycode = some slot ∧ r.pressed = false) :
    let t := (releases.map Call.processKey).foldl (fun s c => s.apply env c)
      ((withTap s slot).keysChanged env)
    t.base = (withTap s slot).base ∧ t.lru = s.lru ∧ t.symPickerOpen = s.symPickerOpen := by
  obtain ⟨hb, hl, ho⟩ := releases_quiet env ((withTap s slot).keysChanged env) slot releases h
  have hsearched : ((withTap s slot).keysChanged env).base = (withTap s slot).base :=
    (log_quiet env _ _).1.trans (run_search_base env _)
  have hcache : ((withTap s slot).keysChanged env).lru = s.lru :=
    (log_face env _ _).2.trans (run_search_lru env _)
  have hopen : ((withTap s slot).keysChanged env).symPickerOpen = s.symPickerOpen :=
    congrArg Prod.snd (keys_changed_sym env _)
  exact ⟨hb.trans hsearched, hl.trans hcache, ho.trans hopen⟩

/-- A `DEL` right after a tap searches for what was there before the tap. -/
theorem del_search (t : ImeLogic) (slot : ℕ) (ht : t.base = (withTap s slot).base)
    (hidle : ¬ s.multitapPending) (hclosed : t.symPickerOpen = false) (del : KeyEvent)
    (hk : del.keycode = mokyaKeyDel) (hp : del.pressed = true) :
    ∃ u : ImeLogic, u.mode = s.mode ∧ u.keys = s.keys ∧ u.hints = s.hints ∧ u.lru = t.lru ∧
      t.apply env (.processKey del) = u.keysChanged env := by
  obtain ⟨hm, hkeys, hhints, hlen⟩ := base_keys ht
  have hmulti : t.multitap = s.multitap := congrArg (fun b => b.2.2.2.2.1) ht
  have hpos : 0 < t.keySeqLen := hlen ▸ Nat.succ_pos _
  have hidle' : ¬ (t.stampNow del.nowMs).multitapPending := by
    show ¬ t.multitap.keycode ≠ mokyaKeyNone
    rw [hmulti]
    exact hidle
  obtain ⟨hadd, hadd'⟩ := key_append_bytes s (slotByte slot) kHintAny
  obtain ⟨hrem, hrem'⟩ := key_remove_bytes (t.stampNow del.nowMs) hpos
  refine ⟨(t.stampNow del.nowMs).keyRemove, hm, ?_, ?_, rfl, ?_⟩
  · have hback : t.keys.dropLast = s.keys := by
      rw [hkeys, show (withTap s slot).keys = _ from hadd, List.dropLast_concat]
    exact hrem.trans hback
  · have hback : t.hints.dropLast = s.hints := by
      rw [hhints, show (withTap s slot).hints = _ from hadd', List.dropLast_concat]
    exact hrem'.trans hback
  · show ((t.stampNow del.nowMs).dispatchKey env del).1 = _
    have hpos' : 0 < (t.stampNow del.nowMs).keySeqLen := hpos
    rw [dispatch_del env (t.stampNow del.nowMs) del hk hp hclosed, ImeLogic.handleDel,
      if_neg hidle', if_pos hpos']

theorem searched_again (u : ImeLogic) (hm : u.mode = s.mode) (hk : u.keys = s.keys)
    (hh : u.hints = s.hints) (hl : u.lru = s.lru) :
    (u.keysChanged env).keys = s.keys ∧ (u.keysChanged env).hints = s.hints ∧
      (u.keysChanged env).candidates = (s.runSearch env).candidates ∧
      (u.keysChanged env).matchedView = (s.runSearch env).matchedView ∧
      (u.keysChanged env).selected = 0 := by
  have hlog : (u.keysChanged env).candidates = (u.runSearch env).candidates ∧
      (u.keysChanged env).matchedView = (u.runSearch env).matchedView ∧
      (u.keysChanged env).selected = (u.runSearch env).selected := by
    unfold ImeLogic.keysChanged ImeLogic.notifyChanged ImeLogic.log
    split <;> exact ⟨rfl, rfl, rfl⟩
  obtain ⟨-, hkeys, hhints, -⟩ :=
    base_keys ((log_quiet env _ .compositionChanged).1.trans (run_search_base env u))
  exact ⟨hkeys.trans hk, hhints.trans hh, hlog.1.trans (run_search_congr hm hk hh hl),
    hlog.2.1.trans (search_view_congr hm hk hh), hlog.2.2.trans (run_search_selected u)⟩

theorem fresh_matched (h : ViewFresh env s) (hidle : ¬ s.multitapPending)
    (hdisplay : s.display = (s.runSearch env).display) :
    (s.runSearch env).matchedPrefixBytes = s.matchedPrefixBytes := by
  rcases h hidle with hsame | hblank
  · exact (congrArg PendingView.matchedPrefixBytes hsame).symm
  · have hle : (s.runSearch env).matchedPrefixBytes ≤ (s.runSearch env).display.length :=
      (search_renders s).matched
    rw [← hdisplay, hblank.1, List.length_nil] at hle
    rw [hblank.2.2, Nat.le_zero.mp hle]

end Undo

/-- `DEL` takes back a short tap, of a key without digits in SmartEn, in every
reachable state that shows what a fresh search finds. -/
theorem del_undoes_tap (env : Env) (calls : List Call)
    (hmode : (ImeLogic.run env calls).mode ≠ .direct)
    (hidle : ¬ (ImeLogic.run env calls).multitapPending)
    (hclosed : (ImeLogic.run env calls).symPickerOpen = false)
    (hroom : (ImeLogic.run env calls).keySeqLen < kMaxKeySeq)
    (hcands : (ImeLogic.run env calls).candidates =
      ((ImeLogic.run env calls).runSearch env).candidates)
    (hdisplay : (ImeLogic.run env calls).display =
      ((ImeLogic.run env calls).runSearch env).display)
    (ev : KeyEvent) (e : KeyEntry) (hkey : findKeyEntry ev.keycode = some e)
    (hletter : (ImeLogic.run env calls).mode = .smartEn → e.digitSlots = [])
    (hpressed : ev.pressed = true) (hshort : ev.flags &&& keyFlagLongPress = 0)
    (releases : List KeyEvent)
    (hreleases : ∀ r ∈ releases, r.keycode = ev.keycode ∧ r.pressed = false)
    (del : KeyEvent) (hdel : del.keycode = mokyaKeyDel ∧ del.pressed = true) :
    let s := ImeLogic.run env calls
    let t := ImeLogic.run env
      (calls++.processKey ev::releases.map .processKey++[.processKey del])
    t.keys = s.keys ∧ t.hints = s.hints ∧ t.candidates = s.candidates ∧ t.display = s.display ∧
      t.matchedPrefixKeys = s.matchedPrefixKeys ∧
      t.matchedPrefixBytes = s.matchedPrefixBytes ∧ t.selected = 0 := by
  obtain ⟨slot, hslot, he⟩ := Option.bind_eq_some_iff.mp hkey
  obtain ⟨hmatched, hfresh⟩ := run_matched env calls
  have hrun : ImeLogic.run env (calls++.processKey ev::releases.map .processKey++
      [.processKey del]) = (((releases.map Call.processKey).foldl (fun s c => s.apply env c)
        ((ImeLogic.run env calls).apply env (.processKey ev))).apply env (.processKey del)) := by
    simp only [ImeLogic.run, List.foldl_append, List.foldl_cons, List.foldl_nil]
  dsimp only
  rw [hrun]
  generalize ImeLogic.run env calls = s at *
  rw [tap_search env s ev slot e hslot he hpressed hshort hmode hletter hidle hclosed hroom]
  obtain ⟨hb, hl, ho⟩ := tap_released env (s.stampNow ev.nowMs) slot releases
    (fun r hr => ⟨(hreleases r hr).1 ▸ hslot, (hreleases r hr).2⟩)
  generalize (releases.map Call.processKey).foldl (fun s c => s.apply env c)
    ((withTap (s.stampNow ev.nowMs) slot).keysChanged env) = t at hb hl ho ⊢
  obtain ⟨u, hum, huk, huh, hul, happly⟩ := del_search env (s.stampNow ev.nowMs) t slot hb hidle
    (ho.trans hclosed) del hdel.1 hdel.2
  obtain ⟨hkeys, hhints, hfound, hview, hsel⟩ := searched_again env s u hum huk huh (hul.trans hl)
  simp only [ImeLogic.matchedView, ImeLogic.pendingView, Prod.mk.injEq, PendingView.mk.injEq] at hview
  obtain ⟨⟨hshown, -, hbytes, -⟩, hcount⟩ := hview
  rw [happly]
  exact ⟨hkeys, hhints, hfound.trans hcands.symm, hshown.trans hdisplay.symm,
    hcount.trans hmatched.symm, hbytes.trans (fresh_matched env s hfresh hidle hdisplay), hsel⟩

/-- ㄅ is typed, a key is tapped, released and deleted. -/
theorem del_undoes_tap_key :
    (ImeLogic.run oneWordEnv [press 0x01 0]).candidates.map Prod.snd = [1] ∧
    (ImeLogic.run oneWordEnv ([press 0x01 0]++.processKey ⟨0x0A, true, 1, 0⟩::
      [⟨0x0A, false, 2, 0⟩].map .processKey++[.processKey ⟨mokyaKeyDel, true, 3, 0⟩])).keys =
      (ImeLogic.run oneWordEnv [press 0x01 0]).keys :=
  ⟨by decide +kernel, (del_undoes_tap oneWordEnv [press 0x01 0] (by decide +kernel)
    (by decide +kernel) (by decide +kernel) (by decide +kernel) (by decide +kernel)
    (by decide +kernel) ⟨0x0A, true, 1, 0⟩ ⟨0x0A, ['ㄧ', 'ㄛ'], [], ['u', 'i', 'U', 'I']⟩ rfl
    (fun _ => rfl) rfl rfl [⟨0x0A, false, 2, 0⟩] (by decide) ⟨mokyaKeyDel, true, 3, 0⟩
    ⟨rfl, rfl⟩).1⟩

end MokyaLora.Ime
