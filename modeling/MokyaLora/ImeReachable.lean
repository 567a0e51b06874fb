import MokyaLora.ImeInvariant
import MokyaLora.Lib.Schedule

/-!
# The invariant in every reachable state
-/

set_option autoImplicit false

namespace MokyaLora.Ime
open Lib.Fields Lib.Memory Lib.Schedule

section Commit

variable (env : Env) (s : ImeLogic)

theorem strip_tones_keys (n : ℕ) (s : ImeLogic)
    (h : KeysOk s.keySeqLen s.keySeq s.phonemeHint) :
    let t := ImeLogic.stripTones n s
    KeysOk t.keySeqLen t.keySeq t.phonemeHint ∧ t.mode = s.mode ∧ t.multitap = s.multitap ∧
      t.keySeqLen ≤ s.keySeqLen := by
  induction n generalizing s with
  | zero => exact ⟨h, rfl, rfl, le_refl _⟩
  | succ n ih =>
    simp only [ImeLogic.stripTones]
    split
    · rename_i hc
      obtain ⟨hk, hm, ht, hl⟩ := ih (s.keysDrop 1) (keys_drop h 1 hc.1)
      exact ⟨hk, hm, ht, le_trans hl (Nat.sub_le _ _)⟩
    · exact ⟨h, rfl, rfl, le_refl _⟩

theorem ready_consume (n : ℕ) (h : Ready s) :
    Ready (s.consumeKeys n) ∧ (s.consumeKeys n).mode = s.mode ∧
      (s.consumeKeys n).multitap = s.multitap := by
  have hdrop : ∀ k ≤ s.keySeqLen, KeysOk (s.keysDrop k).keySeqLen (s.keysDrop k).keySeq
      (s.keysDrop k).phonemeHint := fun k hk => keys_drop h.keys k hk
  have hfinish : ∀ t : ImeLogic, KeysOk t.keySeqLen t.keySeq t.phonemeHint → t.mode = s.mode →
      t.multitap = s.multitap → t.keySeqLen ≤ s.keySeqLen →
      Ready { t with
        keySeq := store t.keySeq t.keySeqLen 0
        candidates := []
        selected := 0
        matchedPrefixBytes := 0
        matchedPrefixKeys := 0
        lpCycle := .none } := by
    intro t hk hm ht hl
    constructor
    · exact keys_terminate hk
    · intro hd
      have := h.direct (hm ▸ hd)
      exact Nat.le_zero.mp (this ▸ hl)
    · exact cycle_none _ _ _ _ rfl
    · rw [hm, ht]
      exact h.label
  unfold ImeLogic.consumeKeys
  dsimp only
  generalize hr : (if 0 < n ∧ n ≤ s.keySeqLen then n else s.keySeqLen) = remove
  have hle : remove ≤ s.keySeqLen := by
    rw [← hr]
    split
    · rename_i hn
      exact hn.2
    · exact le_refl _
  split
  · obtain ⟨hk, hm, ht, hl⟩ := strip_tones_keys (s.keysDrop remove).keySeqLen _ (hdrop _ hle)
    exact ⟨hfinish _ hk hm ht (le_trans hl (Nat.sub_le _ _)), hm, ht⟩
  · obtain ⟨hk, hm, ht, hl⟩ := strip_tones_keys s.keySeqLen s h.keys
    exact ⟨hfinish _ hk hm ht hl, hm, ht⟩

theorem run_search_base : (s.runSearch env).base = s.base := (run_search_retains env s).base

theorem commit_partial_search (site : CommitSite) (str : Bytes) (n : ℕ) :
    ∃ t : ImeLogic, t.base = s.base ∧ (t = s ∨ Noted (s.learn str n) t) ∧
      s.commitPartial env site str n = (t.consumeKeys n).runSearch env := by
  unfold ImeLogic.commitPartial
  dsimp only
  split
  · exact ⟨s, rfl, Or.inl rfl, rfl⟩
  · have hnoted := (did_commit_noted (s.learn str n) str).then (log_noted env _ (.commit site str))
    exact ⟨_, hnoted.quiet.1.trans (learn_quiet s str n).1, Or.inr hnoted, rfl⟩

theorem commit_partial_spec (site : CommitSite) (str : Bytes) (n : ℕ) (h : Ready s) :
    Inv (s.commitPartial env site str n) ∧ (s.commitPartial env site str n).mode = s.mode ∧
      (s.commitPartial env site str n).multitap = s.multitap := by
  obtain ⟨t, ht, -, hcommit⟩ := commit_partial_search env s site str n
  obtain ⟨hr, hm, hl⟩ := ready_consume t n (ready_of_base s t ht h)
  have hb := run_search_base env (t.consumeKeys n)
  rw [hcommit]
  refine ⟨inv_run_search env _ hr, ?_, ?_⟩
  · exact (congrArg (fun b => b.1) hb).trans (hm.trans (congrArg (fun b => b.1) ht))
  · exact (congrArg (fun b => b.2.2.2.2.1) hb).trans
      (hl.trans (congrArg (fun b => b.2.2.2.2.1) ht))

theorem selected_lt (h : s.hasCandidates = true) :
    (if s.selected < s.candidates.length then s.selected else 0) < s.candidates.length := by
  have hne : s.candidates ≠ [] := by simpa [ImeLogic.hasCandidates] using h
  have hpos := List.length_pos_iff.mpr hne
  split
  · assumption
  · exact hpos

theorem commit_selected_spec (h : Inv s) :
    Inv (s.commitSelectedCandidate env) ∧ (s.commitSelectedCandidate env).mode = s.mode ∧
      (s.commitSelectedCandidate env).multitap = s.multitap := by
  unfold ImeLogic.commitSelectedCandidate
  dsimp only
  generalize hsel : (if s.selected < s.candidates.length then s.selected else 0) = sel
  split
  · exact ⟨h, rfl, rfl⟩
  · split
    · have hq := (emit_commit_quiet env s .literal [space]).1
      have hr := ready_of_base s _ hq h.ready
      obtain ⟨hi, hm, ht⟩ := commit_partial_spec env _ _ _ _ hr
      exact ⟨hi, hm.trans (congrArg (fun b => b.1) hq),
        ht.trans (congrArg (fun b => b.2.2.2.2.1) hq)⟩
    · exact commit_partial_spec env s _ _ _ h.ready

end Commit

theorem label_none (mode : InputMode) : LabelOk mode .none := fun h => absurd rfl h

theorem input_key (e : KeyEntry) (h : e ∈ kKeyTable) :
    e.keycode ≠ mokyaKeyNone ∧ e.keycode ≠ mokyaKeySym2 ∧
      1 ≤ e.phonemes.length ∧ e.phonemes.length ≤ 3 := by
  have hall : ∀ e ∈ kKeyTable, e.keycode ≠ mokyaKeyNone ∧ e.keycode ≠ mokyaKeySym2 ∧
      1 ≤ e.phonemes.length ∧ e.phonemes.length ≤ 3 := by decide
  exact hall e h

theorem labels_of_entry (kc : Keycode) (e : KeyEntry) (mode : InputMode)
    (h : findKeyEntry kc = some e) :
    (multitapLabels kc mode).length =
      if e.digitSlots ≠ [] then e.digitSlots.length else e.letterSlots.length := by
  obtain ⟨hmem, rfl⟩ := find_key_entry kc e h
  rw [multitapLabels, if_neg (input_key e hmem).2.1, h]
  dsimp only
  split <;> rw [List.length_map]

theorem skip_missing_self (kc : Keycode) (mode : InputMode) (slotCount n idx : ℕ)
    (h : idx < (multitapLabels kc mode).length) : ImeLogic.skipMissing kc mode slotCount n idx = idx := by
  cases n with
  | zero => rfl
  | succ n =>
    have hl : multitapLabel kc idx mode ≠ none := by simpa [multitapLabel] using h
    rw [ImeLogic.skipMissing, if_neg hl]

section Multitap

variable (env : Env) (s : ImeLogic)

theorem inv_label (h : Inv s) (m : MultiTapState) (d : Bytes) (style : PendingStyle) (n : ℕ)
    (hm : LabelOk s.mode m) (hd : d.length ≤ kMaxDisplayBytes) :
    Inv { s with multitap := m, display := d, pendingStyle := style, matchedPrefixBytes := n } :=
  ⟨⟨h.ready.keys, h.ready.direct, h.ready.cycle, hm⟩, h.candidates, h.selected, hd⟩

theorem multitap_commit_spec (h : Inv s) :
    Inv (s.multitapCommit env) ∧ (s.multitapCommit env).mode = s.mode ∧
      ((s.multitapCommit env).multitap = .none ∨ ¬ s.multitapPending) := by
  unfold ImeLogic.multitapCommit
  split
  · rename_i hp
    exact ⟨h, rfl, Or.inr hp⟩
  · dsimp only
    have hclear : ∀ t : ImeLogic, Inv t → Inv t.multitapClear := fun t ht =>
      inv_label t ht _ _ _ _ (label_none _) (Nat.zero_le _)
    generalize ht : (if s.display = [] then s else (s.didCommit s.display).log env
      (.commit (.multitap s.multitap.keycode s.multitap.slotIdx s.mode) s.display)) = t
    have hq : t.base = s.base ∧ t.found = s.found := by
      rw [← ht]
      split
      · exact ⟨rfl, rfl⟩
      · have hl := log_quiet env (s.didCommit s.display)
          (.commit (.multitap s.multitap.keycode s.multitap.slotIdx s.mode) s.display)
        have hd := did_commit_quiet s s.display
        exact ⟨hl.1.trans hd.1, hl.2.trans hd.2⟩
    have hi := hclear t (inv_of_quiet s t hq.1 hq.2 h)
    have hm : t.multitapClear.mode = s.mode := congrArg (fun b => b.1) hq.1
    split
    · have he := (emit_commit_quiet env t.multitapClear .literal [space]).1
      exact ⟨inv_emit env _ _ _ hi, (congrArg (fun b => b.1) he).trans hm,
        Or.inl (congrArg (fun b => b.2.2.2.2.1) he)⟩
    · exact ⟨hi, hm, Or.inl rfl⟩

theorem inv_multitap_commit (h : Inv s) : Inv (s.multitapCommit env) :=
  (multitap_commit_spec env s h).1

theorem press_label (h : Inv s) (kc : Keycode) (n : ℕ) (last : UInt32)
    (hkc : kc ≠ mokyaKeyNone) (hn : n = (multitapLabels kc s.mode).length) (hpos : 0 < n) :
    let t := if s.multitap.keycode = kc then
        { s with multitap := { s.multitap with slotIdx := (s.multitap.slotIdx+1) % n } }
      else { s.multitapCommit env with multitap := ⟨kc, 0, n, true, last⟩ }
    Inv t ∧ t.mode = s.mode ∧ t.multitap.keycode = kc ∧ t.multitap.slotIdx < n ∧
      t.multitap.slotCount = n := by
  dsimp only
  split
  · rename_i hk
    have hcount : s.multitap.slotCount = n := by
      rw [(h.ready.label (hk ▸ hkc)).2, hk, hn]
    have hlt := Nat.mod_lt (s.multitap.slotIdx+1) hpos
    have hl : LabelOk s.mode { s.multitap with slotIdx := (s.multitap.slotIdx+1) % n } := by
      intro _
      exact ⟨hcount.symm ▸ hlt, by rw [hcount, hk, hn]⟩
    exact ⟨inv_label s h _ _ _ _ hl h.display, rfl, hk, hlt, hcount⟩
  · obtain ⟨hi, hm, -⟩ := multitap_commit_spec env s h
    have hl : LabelOk (s.multitapCommit env).mode ⟨kc, 0, n, true, last⟩ := by
      intro _
      exact ⟨hpos, by rw [hm, hn]⟩
    exact ⟨inv_label _ hi _ _ _ _ hl hi.display, hm, rfl, hpos, rfl⟩

theorem inv_multitap_press (h : Inv s) (kc : Keycode) (n : ℕ) (nowMs : UInt32)
    (hkc : kc ≠ mokyaKeyNone) (hn : n = (multitapLabels kc s.mode).length) (hpos : 0 < n) :
    Inv (s.multitapPress env kc n true nowMs) := by
  obtain ⟨hi, hm, hk, hlt, hcount⟩ := press_label env s h kc n s.multitap.lastMs hkc hn hpos
  unfold ImeLogic.multitapPress
  dsimp only
  generalize (if s.multitap.keycode = kc then
      { s with multitap := { s.multitap with slotIdx := (s.multitap.slotIdx+1) % n } }
    else { s.multitapCommit env with multitap := ⟨kc, 0, n, true, s.multitap.lastMs⟩ }) = t
    at hi hm hk hlt hcount ⊢
  have hidx := skip_missing_self kc t.mode n t.multitap.slotCount t.multitap.slotIdx
    (by rw [hm, ← hn]; exact hlt)
  rw [hidx]
  have hl : LabelOk t.mode { t.multitap with lastMs := nowMs } := by
    intro _
    exact ⟨hcount.symm ▸ hlt, by rw [hcount, hk, hm, hn]⟩
  apply inv_notify
  exact inv_label t hi _ _ _ _ hl (List.length_take_le _ _)

end Multitap

section Smart

variable (env : Env) (s : ImeLogic)

theorem inv_keys_changed (h : Ready s) : Inv (s.keysChanged env) :=
  inv_notify env _ (inv_run_search env s h)

theorem no_candidates (h : s.hasCandidates = false) : s.candidates = [] := by
  simpa [ImeLogic.hasCandidates] using h

theorem ready_append (h : Ready s) (hl : s.keySeqLen < kMaxKeySeq) (hm : s.mode ≠ .direct)
    (k v : UInt8) (hk : 0x20 ≤ k ∧ k ≤ 0x34) (hv : v = kHintAny ∨ v.toNat < phonemeCount k)
    (hv' : v = 0 ∨ v = 1 ∨ v = 2 ∨ v = kHintAny) (c : LpCycleState)
    (hc : CycleOk s.mode (s.keyAppend k v).keySeqLen (s.keyAppend k v).keySeq c) :
    Ready { s.keyAppend k v with lpCycle := c } :=
  ⟨keys_append h.keys hl k v hk hv hv', fun hd => absurd hd hm, hc, h.label⟩

theorem cycle_append (h : Ready s) (k v : UInt8) :
    CycleOk s.mode (s.keyAppend k v).keySeqLen (s.keyAppend k v).keySeq s.lpCycle := by
  intro i hi
  obtain ⟨hm, hlt, slot, hs, hslot, hb⟩ := h.cycle i hi
  refine ⟨hm, Nat.lt_succ_of_lt hlt, slot, hs, hslot, ?_⟩
  rw [← hb]
  simp only [ImeLogic.keyAppend]
  rw [store_of_ne _ _ _ _ (by omega), store_of_ne _ _ _ _ (by omega)]

theorem inv_discard (h : Inv s) (hm : s.mode = .smartEn) (hc : s.hasCandidates = false) :
    Inv s.discardKeys := by
  have hnil := no_candidates s hc
  refine ⟨⟨keys_clear _ _ h.ready.keys.value, fun _ => rfl, ?_, h.ready.label⟩, ?_, ?_,
    Nat.zero_le _⟩
  · intro i hi
    have := (h.ready.cycle i hi).1
    rw [hm] at this
    cases this
  · change CandidatesOk 0 s.candidates
    rw [hnil]
    exact candidates_nil 0
  · exact fun hne => absurd hnil hne

theorem inv_smart_space (h : Inv s) (hd : s.mode ≠ .direct) : Inv (s.smartSpace env).1 := by
  unfold ImeLogic.smartSpace
  split
  · exact inv_notify env _ (inv_emit env _ _ _ h)
  · split
    · split
      · rename_i hk
        exact inv_keys_changed env _ (ready_append s h.ready hk.2.2 hd 0x20 kHintAny (by decide)
          (Or.inl rfl) (by simp) _ (cycle_append s h.ready _ _))
      · exact h
    · rename_i hz
      have hm : s.mode = .smartEn := by
        cases hmode : s.mode with
        | smartZh => exact absurd hmode hz
        | smartEn => rfl
        | direct => exact absurd hmode hd
      apply inv_notify
      apply inv_emit
      split
      · exact (commit_selected_spec env s h).1
      · rename_i hc
        split
        · exact inv_discard s h hm (by simpa using hc)
        · exact h

theorem inv_smart_tab (h : Inv s) : Inv (s.smartTab env).1 := by
  unfold ImeLogic.smartTab
  split
  · apply inv_notify
    refine ⟨ready_of_base s _ rfl h.ready, h.candidates, ?_, h.display⟩
    intro hne
    have hpos := List.length_pos_iff.mpr hne
    dsimp only
    split <;> omega
  · exact h

theorem inv_smart_digit (h : Inv s) (kc : Keycode) (e : KeyEntry) (nowMs : UInt32)
    (he : findKeyEntry kc = some e) (hd : e.digitSlots ≠ []) (hm : s.mode = .smartEn) :
    Inv (s.smartDigit env kc e nowMs).1 := by
  have hkc := (input_key e (find_key_entry kc e he).1).1
  rw [(find_key_entry kc e he).2] at hkc
  unfold ImeLogic.smartDigit
  dsimp only
  generalize ht : (if 0 < s.keySeqLen then
    if s.hasCandidates = true then s.commitSelectedCandidate env else s.discardKeys else s) = t
  have hi : Inv t ∧ t.mode = s.mode := by
    rw [← ht]
    split
    · split
      · have hc := commit_selected_spec env s h
        exact ⟨hc.1, hc.2.1⟩
      · rename_i hc
        exact ⟨inv_discard s h hm (by simpa using hc), rfl⟩
    · exact ⟨h, rfl⟩
  apply inv_multitap_press env t hi.1 kc _ nowMs hkc
  · rw [labels_of_entry kc e _ he, if_pos hd]
  · exact List.length_pos_iff.mpr hd

theorem ready_long_append (h : Inv s) (slot : ℕ) (e : KeyEntry) (nowMs : UInt32)
    (hs : slot < 20) (he : kKeyTable[slot]? = some e) (hp : 1 ≤ e.phonemes.length)
    (hm : s.mode = .smartZh) (hl : s.keySeqLen < kMaxKeySeq) :
    Ready { s.keyAppend (slotByte slot) 0 with
      lpCycle := ⟨some s.keySeqLen, some slot, 0, nowMs⟩ } := by
  apply ready_append s h.ready hl (by rw [hm]; decide) _ _ (slot_byte_range slot hs)
    (Or.inr (by rw [phoneme_count_slot slot e he hs]; exact hp)) (Or.inl rfl)
  intro i hi
  simp only [Option.some.injEq] at hi
  subst hi
  refine ⟨hm, Nat.lt_succ_self _, slot, hs, rfl, ?_⟩
  simp only [ImeLogic.keyAppend]
  rw [store_of_ne _ _ _ _ (by omega), store_self]

theorem inv_long_append (h : Inv s) (slot : ℕ) (e : KeyEntry) (nowMs : UInt32)
    (hs : slot < 20) (he : kKeyTable[slot]? = some e) (hp : 1 ≤ e.phonemes.length)
    (hm : s.mode = .smartZh) : Inv (ImeLogic.smartLongPress.appendLong env s slot nowMs).1 := by
  unfold ImeLogic.smartLongPress.appendLong
  split
  · rename_i hl
    exact inv_keys_changed env _ (ready_long_append s h slot e nowMs hs he hp hm hl)
  · exact h

theorem ready_cycle (h : Inv s) (slot : ℕ) (e : KeyEntry) (nowMs : UInt32)
    (hs : slot < 20) (he : kKeyTable[slot]? = some e)
    (hp : 1 ≤ e.phonemes.length ∧ e.phonemes.length ≤ 3) (i : ℕ)
    (hi : s.lpCycle.byteIndex = some i) (hslot : s.lpCycle.slot = some slot) :
    Ready { s with
      lpCycle := { s.lpCycle with
        phonemeIdx := (s.lpCycle.phonemeIdx+1) % e.phonemes.length, lastMs := nowMs }
      phonemeHint := store s.phonemeHint i
        (UInt8.ofNat ((s.lpCycle.phonemeIdx+1) % e.phonemes.length)) } := by
  obtain ⟨-, hlt, slot', hs', hslot', hb⟩ := h.ready.cycle i hi
  rw [hslot, Option.some.injEq] at hslot'
  subst hslot'
  have hidx := Nat.mod_lt (s.lpCycle.phonemeIdx+1) hp.1
  generalize (s.lpCycle.phonemeIdx+1) % e.phonemes.length = idx at hidx ⊢
  have hnat : (UInt8.ofNat idx).toNat = idx := by
    rw [UInt8.toNat_ofNat']
    omega
  constructor
  · apply keys_hint h.ready.keys
    · rw [hb, phoneme_count_slot slot e he hs, hnat]
      exact hidx
    · have hall : ∀ k < 3, UInt8.ofNat k = 0 ∨ UInt8.ofNat k = 1 ∨ UInt8.ofNat k = 2 := by
        decide
      exact hall idx (by omega)
  · exact h.ready.direct
  · exact h.ready.cycle
  · exact h.ready.label

theorem inv_long_press (h : Inv s) (slot : ℕ) (e : KeyEntry) (nowMs : UInt32)
    (hs : slot < 20) (he : kKeyTable[slot]? = some e)
    (hp : 1 ≤ e.phonemes.length ∧ e.phonemes.length ≤ 3) (hm : s.mode = .smartZh) :
    Inv (s.smartLongPress env slot e nowMs).1 := by
  unfold ImeLogic.smartLongPress
  dsimp only
  rw [if_neg (by omega)]
  split
  · rename_i i hi
    split
    · rename_i hcycle
      exact inv_keys_changed env _ (ready_cycle s h slot e nowMs hs he hp i hi hcycle.1)
    · exact inv_long_append env s h slot e nowMs hs he hp.1 hm
  · exact inv_long_append env s h slot e nowMs hs he hp.1 hm

theorem inv_short_tap (h : Inv s) (slot : ℕ) (hs : slot < 20) (hd : s.mode ≠ .direct) :
    Inv (s.smartShortTap env slot).1 := by
  unfold ImeLogic.smartShortTap
  split
  · rename_i hl
    exact inv_keys_changed env _ (ready_append s h.ready hl hd _ _ (slot_byte_range slot hs)
      (Or.inl rfl) (by simp) _ (cycle_none _ _ _ _ rfl))
  · exact h

theorem inv_handle_smart (h : Inv s) (ev : KeyEvent) (hd : s.mode ≠ .direct) :
    Inv (s.handleSmart env ev).1 := by
  unfold ImeLogic.handleSmart
  split
  · exact inv_smart_space env s h hd
  · split
    · exact inv_smart_tab env s h
    · split
      · exact h
      · rename_i slot hslot
        obtain ⟨hs, e, hmem, he, hk⟩ := input_slot _ _ hslot
        rw [he]
        dsimp only
        split
        · rename_i hdig
          apply inv_smart_digit env s h _ e _ _ hdig.2 hdig.1
          rw [findKeyEntry, hslot, Option.bind_some, he]
        · split
          · rename_i hlong
            exact inv_long_press env s h slot e _ hs he (input_key e hmem).2.2 hlong.1
          · exact inv_short_tap env s h slot hs hd

end Smart

section Keys

variable (env : Env) (s : ImeLogic)

theorem inv_handle_direct (h : Inv s) (ev : KeyEvent) :
    Inv (s.handleDirect env ev).1 := by
  unfold ImeLogic.handleDirect
  split
  · exact inv_notify env _ (inv_emit env _ _ _ (inv_multitap_commit env s h))
  · split
    · exact inv_notify env _ (inv_emit env _ _ _ (inv_multitap_commit env s h))
    · split
      · exact h
      · rename_i e he
        obtain ⟨hmem, hk⟩ := find_key_entry _ e he
        split
        · exact h
        · rename_i hz
          exact inv_multitap_press env s h _ _ _ (hk ▸ (input_key e hmem).1)
            (labels_of_entry ev.keycode e s.mode he).symm (Nat.pos_of_ne_zero hz)

theorem inv_handle_sym1 (h : Inv s) (pressed : Bool) (nowMs : UInt32) :
    Inv (s.handleSym1 env pressed nowMs).1 := by
  have hs : ∀ t : ImeLogic, t.base = s.base → t.found = s.found → Inv t :=
    fun t hb hf => inv_of_quiet s t hb hf h
  unfold ImeLogic.handleSym1
  split
  · split
    · exact h
    · exact hs _ rfl rfl
  · split
    · exact h
    · dsimp only
      split
      · exact hs _ rfl rfl
      · split
        · exact inv_notify env _ (hs _ rfl rfl)
        · exact inv_notify env _ (inv_emit env _ _ _ (inv_multitap_commit env _ (hs _ rfl rfl)))

theorem sym2_labels (mode : InputMode) : multitapLabels mokyaKeySym2 mode = kSym2Cycle mode := by
  rw [multitapLabels, if_pos rfl]

theorem sym2_cycle_pos (mode : InputMode) : 0 < (kSym2Cycle mode).length := by
  cases mode <;> decide

theorem inv_handle_sym2 (h : Inv s) (nowMs : UInt32) : Inv (s.handleSym2 env nowMs).1 := by
  unfold ImeLogic.handleSym2
  dsimp only
  generalize ht : (if s.multitap.keycode = mokyaKeySym2 then s else s.multitapCommit env) = t
  have hi : Inv t ∧ t.mode = s.mode := by
    rw [← ht]
    split
    · exact ⟨h, rfl⟩
    · exact ⟨inv_multitap_commit env s h, (multitap_commit_spec env s h).2.1⟩
  apply inv_notify
  split
  · rename_i hk
    have hl : LabelOk t.mode { t.multitap with
        slotIdx := (t.multitap.slotIdx+1) % (kSym2Cycle s.mode).length, lastMs := nowMs } := by
      intro hne
      have hcount := (hi.1.ready.label hne).2
      rw [hk, sym2_labels, hi.2] at hcount
      refine ⟨?_, (hi.1.ready.label hne).2⟩
      rw [hcount]
      exact Nat.mod_lt _ (sym2_cycle_pos _)
    exact inv_label t hi.1 _ _ _ _ hl (List.length_take_le _ _)
  · have hl : LabelOk t.mode ⟨mokyaKeySym2, 0, (kSym2Cycle s.mode).length, true, nowMs⟩ := by
      intro _
      exact ⟨sym2_cycle_pos _, by rw [sym2_labels, hi.2]⟩
    exact inv_label t hi.1 _ _ _ _ hl (List.length_take_le _ _)

theorem inv_cleared (mode : InputMode) (m : MultiTapState) (t : ImeLogic) (hl : LabelOk mode m) :
    Inv { t.compositionClear with mode := mode, multitap := m } :=
  ⟨⟨keys_clear _ _ (fun _ => Or.inl rfl), fun _ => rfl, cycle_none _ _ _ _ rfl, hl⟩,
    candidates_nil _, fun hne => absurd rfl hne, Nat.zero_le _⟩

theorem inv_cycle_mode (h : Inv s) : Inv (s.cycleMode env) := by
  unfold ImeLogic.cycleMode
  dsimp only
  generalize ht : (if s.multitapPending then s.multitapCommit env
    else if s.hasCandidates = true then s.commitSelectedCandidate env else s) = t
  have hidle : t.multitap.keycode = mokyaKeyNone := by
    rw [← ht]
    split
    · rename_i hp
      rw [((multitap_commit_spec env s h).2.2).resolve_right (not_not.mpr hp)]
      rfl
    · rename_i hp
      split
      · rw [(commit_selected_spec env s h).2.2]
        exact not_not.mp hp
      · exact not_not.mp hp
  apply inv_notify
  exact inv_cleared _ t.multitap t (fun hne => absurd hidle hne)

theorem inv_select (h : Inv s) (i : ℕ) (hi : s.candidates ≠ [] → i < s.candidates.length) :
    Inv { s with selected := i } :=
  ⟨ready_of_base s _ rfl h.ready, h.candidates, hi, h.display⟩

theorem inv_handle_dpad (h : Inv s) (dir : NavDir) : Inv (s.handleDpad env dir).1 := by
  unfold ImeLogic.handleDpad
  split
  · have hmod : ∀ k, s.candidates ≠ [] → k % s.candidates.length < s.candidates.length :=
      fun k hne => Nat.mod_lt k (List.length_pos_iff.mpr hne)
    cases dir with
    | left => exact inv_notify env _ (inv_select s h _ (hmod _))
    | right => exact inv_notify env _ (inv_select s h _ (hmod _))
    | up => exact h
    | down => exact h
  · exact inv_log env s _ h

theorem ready_remove (h : Ready s) (hl : 0 < s.keySeqLen) : Ready s.keyRemove := by
  have hlen : s.keySeqLen = s.keySeqLen-1+1 := by omega
  constructor
  · apply keys_remove
    change KeysOk (s.keySeqLen-1+1) s.keySeq s.phonemeHint
    rw [← hlen]
    exact h.keys
  · intro hd
    have := h.direct hd
    omega
  · intro i hi
    simp only [ImeLogic.keyRemove] at hi ⊢
    split at hi
    · cases hi
    · rename_i hany
      rw [if_neg hany]
      obtain ⟨hm, hlt, slot, hs, hslot, hb⟩ := h.cycle i hi
      have hlt' : ¬ s.keySeqLen-1 ≤ i := by simpa only [hi, Option.any_some, decide_eq_true_eq] using hany
      exact ⟨hm, by omega, slot, hs, hslot, by rw [store_of_ne _ _ _ _ (by omega), hb]⟩
  · exact h.label

theorem inv_handle_del (h : Inv s) : Inv (s.handleDel env).1 := by
  unfold ImeLogic.handleDel
  split
  · exact inv_notify env _ (inv_label s h _ _ _ _ (label_none _) (Nat.zero_le _))
  · split
    · rename_i hl
      exact inv_keys_changed env _ (ready_remove s h.ready hl)
    · exact inv_log env s _ h

theorem inv_handle_ok (h : Inv s) : Inv (s.handleOk env).1 := by
  unfold ImeLogic.handleOk
  split
  · exact inv_notify env _ (commit_selected_spec env s h).1
  · split
    · exact inv_notify env _ (inv_multitap_commit env s h)
    · exact inv_notify env _ (inv_emit env _ _ _ h)

theorem inv_handle_picker (h : Inv s) (kc : Keycode) : Inv (s.handlePicker env kc).1 := by
  have hs : ∀ t : ImeLogic, t.base = s.base → t.found = s.found → Inv t :=
    fun t hb hf => inv_of_quiet s t hb hf h
  unfold ImeLogic.handlePicker
  split
  · exact inv_notify env _ (hs _ rfl rfl)
  · dsimp only
    split
    · exact inv_notify env _ (inv_emit env _ _ _ (hs _ rfl rfl))
    · exact inv_notify env _ (hs _ rfl rfl)

theorem inv_handle_input (h : Inv s) (ev : KeyEvent) : Inv (s.handleInput env ev).1 := by
  unfold ImeLogic.handleInput
  dsimp only
  generalize ht : (if s.multitapPending ∧ s.multitap.keycode ≠ ev.keycode then
    s.multitapCommit env else s) = t
  have hi : Inv t := by
    rw [← ht]
    split
    · exact inv_multitap_commit env s h
    · exact h
  split
  · exact inv_handle_direct env t hi ev
  · rename_i hm
    exact inv_handle_smart env t hi ev hm

theorem inv_dispatch_key (h : Inv s) (ev : KeyEvent) : Inv (s.dispatchKey env ev).1 := by
  unfold ImeLogic.dispatchKey
  split
  · exact h
  split
  · exact inv_handle_sym1 env s h _ _
  split
  · exact h
  split
  · exact inv_handle_picker env s h _
  split
  · exact inv_cycle_mode env s h
  split
  · exact inv_handle_del env s h
  split
  · exact inv_handle_dpad env s h _
  split
  · exact inv_handle_ok env s h
  split
  · exact inv_handle_sym2 env s h _
  · exact inv_handle_input env s h ev

theorem inv_stamp (h : Inv s) (nowMs : UInt32) : Inv (s.stampNow nowMs) :=
  inv_of_quiet s _ rfl rfl h

theorem inv_expire (h : Inv s) (nowMs : UInt32) : Inv (s.expireMultitap env nowMs).1 := by
  unfold ImeLogic.expireMultitap
  split
  · exact inv_multitap_commit env s h
  · exact h

theorem inv_open_picker (h : Inv s) (nowMs : UInt32) : Inv (s.openPicker nowMs).1 := by
  unfold ImeLogic.openPicker
  split
  · exact inv_of_quiet s _ rfl rfl h
  · exact h

theorem inv_lock_cycle (h : Inv s) (nowMs : UInt32) : Inv (s.lockCycle nowMs) := by
  unfold ImeLogic.lockCycle
  split
  · exact ⟨⟨h.ready.keys, h.ready.direct, cycle_none _ _ _ _ rfl, h.ready.label⟩, h.candidates,
      h.selected, h.display⟩
  · exact h

theorem inv_tick (h : Inv s) (nowMs : UInt32) : Inv (s.tick env nowMs).1 := by
  have hlocked := inv_lock_cycle _ (inv_open_picker _
    (inv_expire env _ (inv_stamp s h nowMs) nowMs) nowMs) nowMs
  unfold ImeLogic.tick
  dsimp only
  split
  · exact inv_notify env _ hlocked
  · exact hlocked

theorem inv_abort : Inv (s.abort env) := by
  have hcleared := inv_cleared s.mode .none s (label_none _)
  have haborted : Inv s.aborted := by
    refine inv_of_quiet _ s.aborted ?_ ?_ hcleared <;> rfl
  unfold ImeLogic.abort
  split
  · exact inv_notify env _ haborted
  · exact haborted

theorem inv_set_selected (h : Inv s) (idx : ℤ) : Inv (s.setSelected env idx) := by
  unfold ImeLogic.setSelected
  split
  · exact h
  · apply inv_notify
    apply inv_select s h
    intro hne
    have hpos := List.length_pos_iff.mpr hne
    unfold ImeLogic.clampIndex
    split <;> omega

theorem inv_apply (h : Inv s) (c : Call) : Inv (s.apply env c) := by
  cases c with
  | processKey ev => exact inv_dispatch_key env _ (inv_stamp s h _) ev
  | tick nowMs => exact inv_tick env s h nowMs
  | abort => exact inv_abort env s
  | setSelected idx => exact inv_set_selected env s h idx
  | setTextContext prev =>
    unfold ImeLogic.apply ImeLogic.setTextContext
    dsimp only
    split <;> exact inv_of_quiet s _ rfl rfl h
  | loadLru buf => exact inv_of_quiet s _ rfl rfl h

end Keys

theorem inv_init : Inv .init :=
  ⟨⟨⟨Nat.zero_le _, rfl, by intro i hi; exact absurd hi (Nat.not_lt_zero i),
    by intro i hi; exact absurd hi (Nat.not_lt_zero i), fun _ => Or.inl rfl⟩, fun _ => rfl,
    cycle_none _ _ _ _ rfl, label_none _⟩, candidates_nil _, fun hne => absurd rfl hne,
    Nat.zero_le _⟩

def callStep (env : Env) (s : ImeLogic) (c : Call) : Option ImeLogic := some (s.apply env c)

theorem exec_calls (env : Env) (calls : List Call) (s : ImeLogic) :
    exec (callStep env) s calls = some (calls.foldl (fun s c => s.apply env c) s) := by
  induction calls generalizing s with
  | nil => rfl
  | cons c calls ih => exact ih _

theorem exec_run (env : Env) (calls : List Call) :
    exec (callStep env) .init calls = some (.run env calls) := exec_calls env calls .init

theorem inv_run (env : Env) (calls : List Call) : Inv (.run env calls) := by
  apply exec_invariant (callStep env) (fun _ _ => True) Inv _ calls .init _ inv_init
    (along_of_forall _ _ (fun _ _ => trivial) calls ImeLogic.init) (exec_run env calls)
  intro s c t hs _ ht
  exact Option.some.inj ht ▸ inv_apply env s hs c

/-- After any sequence of calls, whatever the dictionaries return: the key buffer
is terminated and holds keys with hints of their slots, the candidates fit and
consume keys that are there, Direct mode composes nothing, a long-press cycle
points at a key of its slot, and the display and the multi-tap label are in
range. -/
theorem ime_state_invariant (env : Env) (calls : List Call) :
    let s := ImeLogic.run env calls
    s.keySeqLen ≤ 64 ∧ s.keySeq s.keySeqLen = 0 ∧
    (∀ i < s.keySeqLen, 0x20 ≤ s.keySeq i ∧ s.keySeq i ≤ 0x34) ∧
    (∀ i < 64, s.phonemeHint i = 0 ∨ s.phonemeHint i = 1 ∨ s.phonemeHint i = 2 ∨
      s.phonemeHint i = 0xFF) ∧
    (∀ i < s.keySeqLen, s.phonemeHint i ≠ 0xFF →
      (s.phonemeHint i).toNat < phonemeCount (s.keySeq i)) ∧
    s.candidates.length ≤ 100 ∧
    (0 < s.candidates.length → s.selected < s.candidates.length) ∧
    (∀ p ∈ s.candidates, 1 ≤ p.2 ∧ p.2 ≤ s.keySeqLen) ∧
    (s.mode = .direct → s.keySeqLen = 0 ∧ s.candidates = []) ∧
    (∀ i, s.lpCycle.byteIndex = some i → i < s.keySeqLen ∧
      ∃ slot < 20, s.lpCycle.slot = some slot ∧ s.keySeq i = slotByte slot) ∧
    s.display.length ≤ 256 ∧
    (s.multitap.keycode ≠ mokyaKeyNone →
      s.multitap.slotIdx < (multitapLabels s.multitap.keycode s.mode).length) := by
  have h := inv_run env calls
  refine ⟨h.ready.keys.bound, h.ready.keys.nul, h.ready.keys.key, fun i _ => h.ready.keys.value i,
    ?_, h.candidates.count, fun hc => h.selected (List.length_pos_iff.mp hc),
    h.candidates.prefixes, inv_direct h, fun i hi => (h.ready.cycle i hi).2, h.display, ?_⟩
  · intro i hi hne
    exact (h.ready.keys.phoneme i hi).resolve_left hne
  · intro hk
    have hl := h.ready.label hk
    exact hl.2 ▸ hl.1

end MokyaLora.Ime
