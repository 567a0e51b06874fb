import MokyaLora.ImeFlush

/-!
# Aborting

`abort` leaves a new object but for the mode, the cache and the clock. It announces
the change when it finds something in the view, a candidate, a pending multi-tap or
the picker; keys that the view does not show go unannounced.
-/

set_option autoImplicit false

namespace MokyaLora.Ime
open Lib.Fields Lib.Memory Lib.Schedule

namespace ImeLogic

variable (s : ImeLogic)

def typed : Bytes × ℕ × UInt8 × Buffer := (s.keys, s.keySeqLen, s.keySeq 0, s.phonemeHint)

def composition : (Bytes × ℕ × UInt8 × Buffer) × PendingView × ℕ × List (Candidate × ℕ) × ℕ :=
  (s.typed, s.pendingView, s.matchedPrefixKeys, s.candidates, s.selected)

def gestures : MultiTapState × Sym1State × Bool × ℕ × LpCycleState :=
  (s.multitap, s.sym1, s.symPickerOpen, s.symPickerSel, s.lpCycle)

def Active : Prop :=
  s.keySeqLen ≠ 0 ∨ s.hasCandidates = true ∨ s.multitapPending ∨ s.symPickerOpen = true

end ImeLogic

/-- The state after an abort is that of a new object apart from the mode, the cache
and the clock, nothing is committed, and a listener is told just when there was
something to abort. -/
structure AbortContract (env : Env) (s : ImeLogic) : Prop where
  composition : (s.abort env).composition = ImeLogic.init.composition
  gestures : (s.abort env).gestures = ImeLogic.init.gestures
  kept : (s.abort env).mode = s.mode ∧ (s.abort env).lru = s.lru
  commits : (told env s .abort).filterMap Event.text = []
  announced : env.listener = true → (.compositionChanged ∈ told env s .abort ↔ s.Active)

def CallAborts (env : Env) (s : ImeLogic) (c : Call) : Prop := c = .abort → AbortContract env s

/-- Keys that are all there is to abort are shown. -/
def KeysShown (env : Env) (s : ImeLogic) (c : Call) : Prop :=
  c = .abort → env.listener = true → s.hasCandidates = false → ¬ s.multitapPending →
    s.symPickerOpen = false → s.keySeqLen ≠ 0 → s.display ≠ []

def NothingShown (s : ImeLogic) : Prop := s.keySeqLen = 0 → ¬ s.multitapPending → s.display = []

section Abort

variable (env : Env) (s : ImeLogic)

theorem nothing_shown_outcome {t : ImeLogic} {committed dropped : Prop} (hs : NothingShown s)
    (h : Outcome env s t committed dropped) : NothingShown t := by
  intro hk hp
  cases h with
  | shown h =>
    cases h with
    | same face lru why =>
      have hdisplay : t.display = s.display := congrArg (fun f => f.2.1.str) face
      rw [hdisplay]
      exact hs ((length_of_core (core_of_face face)).symm.trans hk)
        (fun hpend => hp ((pending_of_face face).mpr hpend))
    | moved h =>
      cases h with
      | searched u ready face cache lru =>
        have hdisplay : t.display = (u.runSearch env).display := congrArg (fun f => f.2.1.str) face
        have hlen : u.keySeqLen = 0 := by
          rw [← hk, length_of_core (core_of_face face)]
          exact (congrArg (fun b => b.2.2.1) (run_search_base env u)).symm
        rw [hdisplay]
        exact run_search_empty env u hlen
      | cleared keys candidates blank lru => exact blank.1
    | labelled u under h => exact absurd h.pending hp
  | dropped h why => exact h.blank.1

theorem nothing_shown_apply (hi : Inv s) (hs : NothingShown s) (c : Call) :
    NothingShown (s.apply env c) := by
  cases c with
  | loadLru buf => exact hs
  | _ => exact nothing_shown_outcome env s hs (apply_outcome env s hi _ (fun _ => Call.noConfusion))

theorem abort_told : told env s .abort =
    if s.hasPending ∨ s.hasCandidates ∨ s.multitapPending ∨ s.symPickerOpen then
      logged env [.compositionChanged] else [] := by
  have hevents : s.aborted.events = s.events := rfl
  rw [told, ImeLogic.apply, ImeLogic.abort]
  split
  · rw [ImeLogic.notifyChanged, log_logged, hevents, List.drop_left]
  · rw [hevents, List.drop_length]

theorem abort_fields : (s.abort env).composition = ImeLogic.init.composition ∧
    (s.abort env).gestures = ImeLogic.init.gestures ∧ (s.abort env).mode = s.mode ∧
    (s.abort env).lru = s.lru := by
  have hkeys : s.aborted.keys = [] := bytes_zero _
  have hfirst : s.aborted.keySeq 0 = 0 := by
    simp [ImeLogic.aborted, ImeLogic.compositionClear, ImeLogic.keysClear, store]
  have htyped : s.aborted.composition = ImeLogic.init.composition := by
    simp only [ImeLogic.composition, ImeLogic.typed, hkeys, hfirst]
    rfl
  unfold ImeLogic.abort ImeLogic.notifyChanged ImeLogic.log
  split
  · split
    · exact ⟨htyped, rfl, rfl, rfl⟩
    · exact ⟨htyped, rfl, rfl, rfl⟩
  · exact ⟨htyped, rfl, rfl, rfl⟩

theorem abort_commits : (told env s .abort).filterMap Event.text = [] := by
  rw [abort_told]
  unfold logged
  split
  · split <;> rfl
  · rfl

theorem abort_announced (hl : env.listener = true) : .compositionChanged ∈ told env s .abort ↔
    s.display ≠ [] ∨ s.hasCandidates = true ∨ s.multitapPending ∨ s.symPickerOpen = true := by
  rw [abort_told, logged, if_pos hl]
  have hpending : s.hasPending = true ↔ s.display ≠ [] := by simp [ImeLogic.hasPending]
  rw [← hpending]
  split
  · rename_i hstate
    exact iff_of_true (by simp) hstate
  · rename_i hstate
    exact iff_of_false (by simp) hstate

theorem abort_contract_iff (hs : NothingShown s) (c : Call) :
    CallAborts env s c ↔ KeysShown env s c := by
  unfold CallAborts KeysShown
  apply forall_congr'
  intro _
  obtain ⟨hcomposition, hgestures, hkept⟩ := abort_fields env s
  constructor
  · intro h hl hcand hp hopen hk
    have hactive := (h.announced hl).mpr (Or.inl hk)
    rw [abort_announced env s hl] at hactive
    simpa [hcand, hp, hopen] using hactive
  · intro h
    refine ⟨hcomposition, hgestures, hkept, abort_commits env s, fun hl => ?_⟩
    rw [abort_announced env s hl, ImeLogic.Active]
    by_cases hrest : s.hasCandidates = true ∨ s.multitapPending ∨ s.symPickerOpen = true
    · exact iff_of_true (Or.inr hrest) (Or.inr hrest)
    · rw [or_iff_left hrest, or_iff_left hrest]
      push Not at hrest
      obtain ⟨hcand, hp, hopen⟩ := hrest
      constructor
      · exact fun hd hk => hd (hs hk hp)
      · exact h hl (Bool.eq_false_iff.mpr hcand) hp (Bool.eq_false_iff.mpr hopen)

end Abort

/-- In every run each abort keeps its contract if and only if none finds keys that are
all there is to abort and that the view does not show. -/
theorem abort_kept_iff (env : Env) (calls : List Call) :
    Along (callStep env) (CallAborts env) .init calls ↔
      Along (callStep env) (KeysShown env) .init calls := by
  apply along_iff_of_invariant (callStep env) _ _ (fun s => Inv s ∧ NothingShown s) _
    (fun s c hs => abort_contract_iff env s hs.2 c) calls .init ⟨inv_init, fun _ _ => rfl⟩
  intro s c t hs ht
  exact Option.some.inj ht ▸ ⟨inv_apply env s hs.1 c, nothing_shown_apply env s hs.1 hs.2 c⟩

/-- ㄅ is typed without a dictionary, and a full stop over it is cancelled: the key is
not shown any more, and the abort that drops it is not announced. -/
theorem abort_unannounced :
    (ImeLogic.run bareEnv cancelOverKey).keySeqLen = 1 ∧
    ((ImeLogic.run bareEnv cancelOverKey).abort bareEnv).keySeqLen = 0 ∧
    told bareEnv (ImeLogic.run bareEnv cancelOverKey) .abort = [] ∧
    ¬ AbortContract bareEnv (ImeLogic.run bareEnv cancelOverKey) := by
  have hlen : (ImeLogic.run bareEnv cancelOverKey).keySeqLen = 1 := by decide +kernel
  have htold : told bareEnv (ImeLogic.run bareEnv cancelOverKey) .abort = [] := by decide +kernel
  refine ⟨hlen, by decide +kernel, htold, fun h => ?_⟩
  have hchanged := (h.announced rfl).mpr (Or.inl (by rw [hlen]; decide))
  rw [htold] at hchanged
  cases hchanged

end MokyaLora.Ime
