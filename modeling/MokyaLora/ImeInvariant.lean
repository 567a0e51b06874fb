import MokyaLora.ImeLogic
import MokyaLora.Lib.Filling

/-!
# What every call keeps

The invariant has a part that the key handlers establish, about the keys, their
hints, the long-press cycle and the multi-tap label, and a part that the search
establishes from it, about the candidates and the display.
-/

set_option autoImplicit false

namespace MokyaLora.Ime
open Lib.Fields Lib.Memory

/-- The key buffer: terminated, within its capacity, every key with a hint that
its slot has a phoneme for. -/
structure KeysOk (len : ℕ) (keySeq hint : Buffer) : Prop where
  bound : len ≤ kMaxKeySeq
  nul : keySeq len = 0
  key : ∀ i < len, 0x20 ≤ keySeq i ∧ keySeq i ≤ 0x34
  phoneme : ∀ i < len, hint i = kHintAny ∨ (hint i).toNat < phonemeCount (keySeq i)
  value : ∀ i, hint i = 0 ∨ hint i = 1 ∨ hint i = 2 ∨ hint i = kHintAny

def CycleOk (mode : InputMode) (len : ℕ) (keySeq : Buffer) (c : LpCycleState) : Prop :=
  ∀ i, c.byteIndex = some i → mode = .smartZh ∧ i < len ∧
    ∃ slot < 20, c.slot = some slot ∧ keySeq i = slotByte slot

def LabelOk (mode : InputMode) (m : MultiTapState) : Prop :=
  m.keycode ≠ mokyaKeyNone →
    m.slotIdx < m.slotCount ∧ m.slotCount = (multitapLabels m.keycode mode).length

structure Ready (s : ImeLogic) : Prop where
  keys : KeysOk s.keySeqLen s.keySeq s.phonemeHint
  direct : s.mode = .direct → s.keySeqLen = 0
  cycle : CycleOk s.mode s.keySeqLen s.keySeq s.lpCycle
  label : LabelOk s.mode s.multitap

/-- A candidate list that fits its array, with prefixes of the keys. -/
structure CandidatesOk (len : ℕ) (cands : List (Candidate × ℕ)) : Prop where
  count : cands.length ≤ kMaxCandidates
  prefixes : ∀ p ∈ cands, 1 ≤ p.2 ∧ p.2 ≤ len

structure Inv (s : ImeLogic) : Prop where
  ready : Ready s
  candidates : CandidatesOk s.keySeqLen s.candidates
  selected : s.candidates ≠ [] → s.selected < s.candidates.length
  display : s.display.length ≤ kMaxDisplayBytes

namespace ImeLogic

def base (s : ImeLogic) : InputMode × Buffer × ℕ × Buffer × MultiTapState × LpCycleState :=
  (s.mode, s.keySeq, s.keySeqLen, s.phonemeHint, s.multitap, s.lpCycle)

def found (s : ImeLogic) : List (Candidate × ℕ) × ℕ × Bytes := (s.candidates, s.selected, s.display)

end ImeLogic

theorem ready_of_base (s t : ImeLogic) (h : t.base = s.base) (hs : Ready s) : Ready t := by
  simp only [ImeLogic.base, Prod.mk.injEq] at h
  obtain ⟨hm, hk, hl, hh, ht, hc⟩ := h
  constructor
  · rw [hl, hk, hh]; exact hs.keys
  · rw [hm, hl]; exact hs.direct
  · rw [hm, hl, hk, hc]; exact hs.cycle
  · rw [hm, ht]; exact hs.label

theorem inv_of_quiet (s t : ImeLogic) (hb : t.base = s.base) (hf : t.found = s.found)
    (hs : Inv s) : Inv t := by
  have hl : t.keySeqLen = s.keySeqLen := congrArg (fun b => b.2.2.1) hb
  simp only [ImeLogic.found, Prod.mk.injEq] at hf
  obtain ⟨hc, hsel, hd⟩ := hf
  constructor
  · exact ready_of_base s t hb hs.ready
  · rw [hl, hc]; exact hs.candidates
  · rw [hc, hsel]; exact hs.selected
  · rw [hd]; exact hs.display

theorem inv_direct {s : ImeLogic} (hs : Inv s) (h : s.mode = .direct) :
    s.keySeqLen = 0 ∧ s.candidates = [] := by
  have hl := hs.ready.direct h
  refine ⟨hl, List.eq_nil_iff_forall_not_mem.mpr ?_⟩
  intro p hp
  have := hs.candidates.prefixes p hp
  omega

section Quiet

variable (env : Env) (s : ImeLogic)

def Noted (s t : ImeLogic) : Prop :=
  t = { s with
    enCapitalizeNext := t.enCapitalizeNext
    enLastEndedWithSpace := t.enLastEndedWithSpace
    events := t.events }

theorem Noted.then {s t u : ImeLogic} (h : Noted s t) (h' : Noted t u) : Noted s u := by
  rw [Noted] at h'
  rw [Noted, h', h]

theorem Noted.keeps {β : Type} {s t : ImeLogic} (h : Noted s t) (f : ImeLogic → β)
    (hf : ∀ a b events, f { s with
      enCapitalizeNext := a
      enLastEndedWithSpace := b
      events := events } = f s) : f t = f s := by
  rw [Noted] at h
  rw [h]
  exact hf _ _ _

theorem log_noted (e : Event) : Noted s (s.log env e) := by
  unfold ImeLogic.log
  split <;> rfl

theorem did_commit_noted (str : Bytes) : Noted s (s.didCommit str) := by
  unfold ImeLogic.didCommit
  split
  · rfl
  · dsimp only
    split <;> rfl

theorem emit_noted (site : CommitSite) (str : Bytes) : Noted s (s.emitCommit env site str) := by
  unfold ImeLogic.emitCommit
  split
  · rfl
  · exact (did_commit_noted s str).then (log_noted env _ _)

theorem Noted.quiet {s t : ImeLogic} (h : Noted s t) : t.base = s.base ∧ t.found = s.found :=
  ⟨h.keeps ImeLogic.base (fun _ _ _ => rfl), h.keeps ImeLogic.found (fun _ _ _ => rfl)⟩

theorem log_quiet (e : Event) : (s.log env e).base = s.base ∧ (s.log env e).found = s.found :=
  (log_noted env s e).quiet

theorem did_commit_quiet (str : Bytes) :
    (s.didCommit str).base = s.base ∧ (s.didCommit str).found = s.found :=
  (did_commit_noted s str).quiet

theorem emit_commit_quiet (site : CommitSite) (str : Bytes) :
    (s.emitCommit env site str).base = s.base ∧ (s.emitCommit env site str).found = s.found :=
  (emit_noted env s site str).quiet

theorem learn_quiet (str : Bytes) (n : ℕ) :
    (s.learn str n).base = s.base ∧ (s.learn str n).found = s.found := by
  unfold ImeLogic.learn
  split <;> exact ⟨rfl, rfl⟩

theorem inv_log (e : Event) (hs : Inv s) : Inv (s.log env e) :=
  inv_of_quiet s _ (log_quiet env s e).1 (log_quiet env s e).2 hs

theorem inv_notify (hs : Inv s) : Inv (s.notifyChanged env) := inv_log env s _ hs

theorem inv_emit (site : CommitSite) (str : Bytes) (hs : Inv s) :
    Inv (s.emitCommit env site str) :=
  inv_of_quiet s _ (emit_commit_quiet env s site str).1 (emit_commit_quiet env s site str).2 hs

end Quiet

theorem candidates_nil (len : ℕ) : CandidatesOk len [] := ⟨Nat.zero_le _, by simp⟩

theorem merge_candidates_ok (len n : ℕ) (new : List Candidate) (cands : List (Candidate × ℕ))
    (hn : 1 ≤ n ∧ n ≤ len) (h : CandidatesOk len cands) :
    CandidatesOk len (mergeCandidates cands new n) := by
  unfold mergeCandidates
  induction new generalizing cands with
  | nil => exact h
  | cons c new ih =>
    rw [List.foldl_cons]
    apply ih
    split
    · rename_i hc
      refine ⟨by simp; omega, ?_⟩
      intro p hp
      rcases List.mem_append.mp hp with hp | hp
      · exact h.prefixes p hp
      · rw [List.mem_singleton.mp hp]
        exact hn
    · exact h

theorem stripped_index (keys : Bytes) (k : ℕ) (b : UInt8) (i : ℕ)
    (h : (strippedKeys keys)[k]? = some (b, i)) : i < keys.length := by
  have hmem := List.mem_of_getElem? h
  simp only [strippedKeys, List.mem_filter] at hmem
  have hz := List.mem_zipIdx hmem.1
  omega

theorem legacy_loop_ok (searcher : TrieSearch) (keys : Bytes) (slen : ℕ)
    (acc : List (Candidate × ℕ) × ℕ) (h : CandidatesOk keys.length acc.1) :
    CandidatesOk keys.length (legacyLoop searcher keys slen acc).1 := by
  induction slen generalizing acc with
  | zero => exact h
  | succ slen ih =>
    simp only [legacyLoop]
    split
    · exact h
    · split
      · exact ih acc h
      · split
        · rename_i hi
          have hlt := stripped_index keys slen _ _ hi
          exact ih _ (merge_candidates_ok _ _ _ _ (by omega) h)
        · exact ih acc h

theorem pieces_fill (pieces : List Bytes) (d : Bytes) :
    pieces.foldl displayAppend d = Lib.Filling.fill kMaxDisplayBytes d pieces := rfl

theorem v4_candidates_congr (cs : CompositionSearch) (a b : ImeLogic) (hk : a.keys = b.keys)
    (hh : a.hints = b.hints) (hl : a.keySeqLen = b.keySeqLen) (hc : a.candidates = b.candidates) :
    (a.runSearchV4 cs).candidates = (b.runSearchV4 cs).candidates := by
  have hp : a.positions cs = b.positions cs := by
    rw [ImeLogic.positions, ImeLogic.positions, hk]
  have hadj : a.adjacentBucket cs = b.adjacentBucket cs := by
    funext cands target
    rw [ImeLogic.adjacentBucket, ImeLogic.adjacentBucket, hk, hh, hl]
  unfold ImeLogic.runSearchV4
  rw [hp, hadj, hk, hh, hl]
  dsimp only
  split
  · exact hc
  · split <;> rfl

section Search

variable (env : Env) (s : ImeLogic)

theorem rebuild_from_length (i : ℕ) (ks : List (UInt8 × UInt8)) (acc : Bytes × ℕ)
    (h : acc.1.length ≤ kMaxDisplayBytes) :
    (s.rebuildFrom i ks acc).1.length ≤ kMaxDisplayBytes := by
  induction ks generalizing i acc with
  | nil => exact h
  | cons k ks ih => exact ih _ _ (Lib.Filling.fill_length_le kMaxDisplayBytes _ _ h)

theorem rebuild_display_length : s.rebuildDisplaySmart.display.length ≤ kMaxDisplayBytes :=
  rebuild_from_length s 0 _ ([], 0) (Nat.zero_le _)

theorem inv_rebuild (h : Ready s) (hc : CandidatesOk s.keySeqLen s.candidates)
    (hs : s.selected = 0) : Inv s.rebuildDisplaySmart where
  ready := ready_of_base s _ rfl h
  candidates := hc
  selected := by
    intro hne
    have hpos := List.length_pos_iff.mpr hne
    exact hs ▸ hpos
  display := rebuild_display_length s

theorem prepend_candidates (hc : CandidatesOk s.keySeqLen s.candidates) :
    CandidatesOk s.prependLruCandidates.keySeqLen s.prependLruCandidates.candidates := by
  unfold ImeLogic.prependLruCandidates
  split
  · exact hc
  · dsimp only
    split
    · exact hc
    · obtain ⟨hl, hp⟩ := LruCache.lookup_spec s.lru s.keys (some s.hints) kMaxCandidates
      simp only [ImeLogic.keys, bytes_length] at hp
      refine ⟨by simp [ImeLogic.keys] at hl ⊢; omega, ?_⟩
      intro p hmem
      rcases List.mem_append.mp hmem with hmem | hmem
      · exact hp p hmem
      · exact hc.prefixes p (List.mem_filter.mp (List.mem_of_mem_take hmem)).1

theorem prepend_quiet :
    s.prependLruCandidates.base = s.base ∧ s.prependLruCandidates.display = s.display ∧
    (s.prependLruCandidates = s ∨ s.prependLruCandidates.selected = 0) := by
  unfold ImeLogic.prependLruCandidates
  split
  · exact ⟨rfl, rfl, Or.inl rfl⟩
  · dsimp only
    split
    · exact ⟨rfl, rfl, Or.inl rfl⟩
    · exact ⟨rfl, rfl, Or.inr rfl⟩

theorem inv_prepend (h : Inv s) : Inv s.prependLruCandidates := by
  obtain ⟨hb, hd, hsame | hsel⟩ := prepend_quiet s
  · rwa [hsame]
  · exact {
      ready := ready_of_base s _ hb h.ready
      candidates := prepend_candidates s h.candidates
      selected := fun hne => hsel ▸ List.length_pos_iff.mpr hne
      display := hd ▸ h.display }

theorem primary_ok (cs : List Candidate) (len n : ℕ) (hn : 1 ≤ n ∧ n ≤ len)
    (h : cs.length ≤ kMaxCandidates) : CandidatesOk len (cs.map (fun c => (c, n))) := by
  refine ⟨by simpa using h, ?_⟩
  intro p hp
  obtain ⟨c, -, rfl⟩ := List.mem_map.mp hp
  exact hn

theorem adjacent_ok (cs : CompositionSearch) (cands : List (Candidate × ℕ)) (target : ℤ)
    (hl : 0 < s.keySeqLen) (h : CandidatesOk s.keySeqLen cands) :
    CandidatesOk s.keySeqLen (s.adjacentBucket cs cands target) := by
  unfold ImeLogic.adjacentBucket
  split
  · exact h
  · exact merge_candidates_ok _ _ _ _ ⟨hl, le_refl _⟩ h

theorem run_search_v4_candidates (cs : CompositionSearch) (hl : 0 < s.keySeqLen)
    (h : CandidatesOk s.keySeqLen s.candidates) :
    CandidatesOk s.keySeqLen (s.runSearchV4 cs).candidates := by
  unfold ImeLogic.runSearchV4
  dsimp only
  split
  · exact h
  · split
    · simp only [List.foldl_cons, List.foldl_nil]
      iterate 4 apply adjacent_ok s cs _ _ hl
      exact primary_ok _ _ _ ⟨hl, le_refl _⟩ (cs.atMost _ _ _ _)
    · have hchars := primary_ok (cs.search (s.keys.take 1) (s.hints.take 1) 1 kMaxCandidates)
        s.keySeqLen 1 ⟨le_refl _, hl⟩ (cs.atMost _ _ _ _)
      dsimp only
      split
      · have hphr := cs.atMost s.keys s.hints (-1) (kMaxCandidates-((cs.search (s.keys.take 1)
          (s.hints.take 1) 1 kMaxCandidates).map (fun c => (c, 1))).length)
        have hphrases := primary_ok _ s.keySeqLen s.keySeqLen ⟨hl, le_refl _⟩
          (le_trans hphr (Nat.sub_le _ _))
        refine ⟨?_, ?_⟩
        · have := hchars.count
          simp only [List.length_append, List.length_map] at *
          omega
        · intro p hp
          rcases List.mem_append.mp hp with hp | hp
          · exact hchars.prefixes p hp
          · exact hphrases.prefixes p hp
      · simpa using hchars

theorem run_search_v4_quiet (cs : CompositionSearch) :
    (s.runSearchV4 cs).base = s.base ∧ (s.runSearchV4 cs).selected = s.selected := by
  unfold ImeLogic.runSearchV4
  dsimp only
  split
  · exact ⟨rfl, rfl⟩
  · split <;> exact ⟨rfl, rfl⟩

/-- Only members that the search owns were set. -/
def Retains (s t : ImeLogic) : Prop :=
  t = { s with
    display := t.display
    pendingStyle := t.pendingStyle
    matchedPrefixBytes := t.matchedPrefixBytes
    matchedPrefixKeys := t.matchedPrefixKeys
    candidates := t.candidates
    selected := t.selected }

theorem Retains.then {s t u : ImeLogic} (h : Retains s t) (h' : Retains t u) : Retains s u := by
  rw [Retains] at h'
  rw [Retains, h', h]

theorem Retains.base {s t : ImeLogic} (h : Retains s t) : t.base = s.base := by
  rw [Retains] at h
  rw [h]
  rfl

theorem Retains.lru {s t : ImeLogic} (h : Retains s t) : t.lru = s.lru := by
  rw [Retains] at h
  rw [h]

theorem legacy_retains : Retains s (s.runSearchV2Legacy env) := by
  unfold ImeLogic.runSearchV2Legacy
  split <;> rfl

theorem run_search_v4_retains (cs : CompositionSearch) : Retains s (s.runSearchV4 cs) := by
  unfold ImeLogic.runSearchV4
  dsimp only
  split
  · rfl
  · split <;> rfl

theorem prepend_retains : Retains s s.prependLruCandidates := by
  unfold ImeLogic.prependLruCandidates
  dsimp only
  split
  · rfl
  · split <;> rfl

theorem run_search_retains : Retains s (s.runSearch env) := by
  have hstart : Retains s s.searchStart := rfl
  unfold ImeLogic.runSearch
  dsimp only
  split
  · exact hstart.then rfl
  · split
    · exact ((hstart.then (run_search_v4_retains _ _)).then (prepend_retains _)).then rfl
    · exact (hstart.then (legacy_retains env _)).then (prepend_retains _)

/-- The search establishes its part of the invariant whatever the dictionaries
hold. -/
theorem inv_run_search (h : Ready s) : Inv (s.runSearch env) := by
  have hstart : Ready s.searchStart := ready_of_base s _ rfl h
  have hnil := candidates_nil s.keySeqLen
  unfold ImeLogic.runSearch
  dsimp only
  split
  · exact inv_rebuild _ hstart hnil rfl
  · rename_i hl
    have hpos : 0 < s.keySeqLen := Nat.pos_of_ne_zero hl
    split
    · rename_i cs hcs
      obtain ⟨hb, hsel⟩ := run_search_v4_quiet s.searchStart cs
      obtain ⟨hb', hd, hsel'⟩ := prepend_quiet (s.searchStart.runSearchV4 cs)
      have hlen : (s.searchStart.runSearchV4 cs).keySeqLen = s.keySeqLen :=
        congrArg (fun b => b.2.2.1) hb
      apply inv_rebuild
      · exact ready_of_base s.searchStart _ (hb'.trans hb) hstart
      · apply prepend_candidates
        rw [hlen]
        exact run_search_v4_candidates s.searchStart cs hpos hnil
      · rcases hsel' with hsame | hzero
        · rw [hsame, hsel]
          rfl
        · exact hzero
    · have hv2 : Inv (s.searchStart.runSearchV2Legacy env) := by
        unfold ImeLogic.runSearchV2Legacy
        split
        · exact inv_rebuild _ hstart hnil rfl
        · apply inv_rebuild
          · exact ready_of_base s.searchStart _ rfl hstart
          · have hloop := legacy_loop_ok ‹TrieSearch› s.keys (strippedKeys s.keys).length ([], 0)
              (candidates_nil _)
            rwa [ImeLogic.keys, bytes_length] at hloop
          · rfl
      exact inv_prepend _ hv2

end Search

theorem phoneme_count_slot (slot : ℕ) (e : KeyEntry) (h : kKeyTable[slot]? = some e)
    (hs : slot < 20) : phonemeCount (slotByte slot) = e.phonemes.length := by
  rw [phonemeCount, byte_slot slot hs, Option.bind_some, h]

theorem keys_append {len : ℕ} {keySeq hint : Buffer} (h : KeysOk len keySeq hint)
    (hl : len < kMaxKeySeq) (k v : UInt8) (hk : 0x20 ≤ k ∧ k ≤ 0x34)
    (hv : v = kHintAny ∨ v.toNat < phonemeCount k)
    (hv' : v = 0 ∨ v = 1 ∨ v = 2 ∨ v = kHintAny) :
    KeysOk (len+1) (store (store keySeq len k) (len+1) 0) (store hint len v) where
  bound := hl
  nul := store_self _ _ _
  key := by
    intro i hi
    rw [store_of_ne _ _ _ _ (by omega)]
    by_cases h' : i = len
    · rw [h', store_self]
      exact hk
    · rw [store_of_ne _ _ _ _ h']
      exact h.key i (by omega)
  phoneme := by
    intro i hi
    rw [store_of_ne _ _ _ _ (show i ≠ len+1 by omega)]
    by_cases h' : i = len
    · rw [h', store_self, store_self]
      exact hv
    · rw [store_of_ne _ _ _ _ h', store_of_ne _ _ _ _ h']
      exact h.phoneme i (by omega)
  value := by
    intro i
    by_cases h' : i = len
    · rw [h', store_self]
      exact hv'
    · rw [store_of_ne _ _ _ _ h']
      exact h.value i

theorem keys_clear (keySeq hint : Buffer)
    (hv : ∀ i, hint i = 0 ∨ hint i = 1 ∨ hint i = 2 ∨ hint i = kHintAny) :
    KeysOk 0 (store keySeq 0 0) hint where
  bound := Nat.zero_le _
  nul := store_self _ _ _
  key := by intro i hi; omega
  phoneme := by intro i hi; omega
  value := hv

theorem keys_drop {len : ℕ} {keySeq hint : Buffer} (h : KeysOk len keySeq hint) (n : ℕ)
    (hn : n ≤ len) : KeysOk (len-n) (moveDown keySeq n (len-n+1)) (moveDown hint n (len-n)) where
  bound := le_trans (Nat.sub_le _ _) h.bound
  nul := by
    rw [moveDown, if_pos (by omega), show len-n+n = len by omega]
    exact h.nul
  key := by
    intro i hi
    rw [moveDown, if_pos (by omega)]
    exact h.key (i+n) (by omega)
  phoneme := by
    intro i hi
    rw [moveDown, if_pos hi, moveDown, if_pos (by omega)]
    exact h.phoneme (i+n) (by omega)
  value := by
    intro i
    rw [moveDown]
    split <;> exact h.value _

theorem keys_remove {len : ℕ} {keySeq hint : Buffer} (h : KeysOk (len+1) keySeq hint) :
    KeysOk len (store keySeq len 0) hint where
  bound := Nat.le_of_succ_le h.bound
  nul := store_self _ _ _
  key := by
    intro i hi
    rw [store_of_ne _ _ _ _ (by omega)]
    exact h.key i (by omega)
  phoneme := by
    intro i hi
    rw [store_of_ne _ _ _ _ (by omega)]
    exact h.phoneme i (by omega)
  value := h.value

theorem keys_hint {len : ℕ} {keySeq hint : Buffer} (h : KeysOk len keySeq hint) (j : ℕ)
    (v : UInt8) (hv : v.toNat < phonemeCount (keySeq j)) (hv' : v = 0 ∨ v = 1 ∨ v = 2) :
    KeysOk len keySeq (store hint j v) where
  bound := h.bound
  nul := h.nul
  key := h.key
  phoneme := by
    intro i hi
    by_cases h' : i = j
    · rw [h', store_self]
      exact Or.inr hv
    · rw [store_of_ne _ _ _ _ h']
      exact h.phoneme i hi
  value := by
    intro i
    by_cases h' : i = j
    · rw [h', store_self]
      tauto
    · rw [store_of_ne _ _ _ _ h']
      exact h.value i

theorem keys_terminate {len : ℕ} {keySeq hint : Buffer} (h : KeysOk len keySeq hint) :
    KeysOk len (store keySeq len 0) hint where
  bound := h.bound
  nul := store_self _ _ _
  key := by
    intro i hi
    rw [store_of_ne _ _ _ _ (by omega)]
    exact h.key i hi
  phoneme := by
    intro i hi
    rw [store_of_ne _ _ _ _ (by omega)]
    exact h.phoneme i hi
  value := h.value

theorem cycle_none (mode : InputMode) (len : ℕ) (keySeq : Buffer) (c : LpCycleState)
    (h : c.byteIndex = none) : CycleOk mode len keySeq c := by
  intro i hi
  rw [h] at hi
  cases hi

end MokyaLora.Ime
