import MokyaLora.ImeOutcome
import MokyaLora.ImeCommits

/-!
# The candidates are those of a fresh search
-/

set_option autoImplicit false

namespace MokyaLora.Ime
open Lib.Fields Lib.Memory Lib.Schedule

section Congr

variable {env : Env} {s t : ImeLogic}

theorem prepend_candidates_congr (hm : t.mode = s.mode) (hk : t.keys = s.keys)
    (hh : t.hints = s.hints) (hn : t.keySeqLen = s.keySeqLen) (hl : t.lru = s.lru)
    (hc : t.candidates = s.candidates) :
    t.prependLruCandidates.candidates = s.prependLruCandidates.candidates := by
  simp only [ImeLogic.prependLruCandidates, hm, hk, hh, hn, hl, hc]
  split
  · exact hc
  · split
    · exact hc
    · rfl

theorem legacy_candidates_congr (hm : t.mode = s.mode) (hk : t.keys = s.keys)
    (hc : t.candidates = s.candidates) :
    (t.runSearchV2Legacy env).candidates = (s.runSearchV2Legacy env).candidates := by
  have ha : t.activeSearcher env = s.activeSearcher env := by
    rw [ImeLogic.activeSearcher, ImeLogic.activeSearcher, hm]
  unfold ImeLogic.runSearchV2Legacy
  rw [ha]
  cases s.activeSearcher env with
  | none => exact hc
  | some searcher =>
    show (legacyLoop searcher t.keys _ _).1 = (legacyLoop searcher s.keys _ _).1
    rw [hk]

theorem base_keys (h : t.base = s.base) : t.mode = s.mode ∧ t.keys = s.keys ∧
    t.hints = s.hints ∧ t.keySeqLen = s.keySeqLen := by
  simp only [ImeLogic.base, Prod.mk.injEq] at h
  obtain ⟨hm, hk, hl, hh, -, -⟩ := h
  exact ⟨hm, by rw [ImeLogic.keys, hk, hl, ImeLogic.keys],
    by rw [ImeLogic.hints, hh, hl, ImeLogic.hints], hl⟩

theorem length_of_keys (h : t.keys = s.keys) : t.keySeqLen = s.keySeqLen := by
  have hlen := congrArg List.length h
  rwa [ImeLogic.keys, ImeLogic.keys, bytes_length, bytes_length] at hlen

theorem run_search_nil (h : s.keySeqLen = 0) : (s.runSearch env).candidates = [] := by
  have hz : s.searchStart.keySeqLen = 0 := h
  rw [ImeLogic.runSearch, if_pos hz]
  rfl

theorem run_search_congr (hm : t.mode = s.mode) (hk : t.keys = s.keys) (hh : t.hints = s.hints)
    (hl : t.lru = s.lru) : (t.runSearch env).candidates = (s.runSearch env).candidates := by
  have hn := length_of_keys hk
  by_cases hz : s.keySeqLen = 0
  · rw [run_search_nil hz, run_search_nil (hn.trans hz)]
  · have hs : ¬ s.searchStart.keySeqLen = 0 := hz
    have ht : ¬ t.searchStart.keySeqLen = 0 := fun h => hz (hn.symm.trans h)
    have hv : t.searchStart.v4Searcher env = s.searchStart.v4Searcher env := by
      rw [ImeLogic.v4Searcher, ImeLogic.v4Searcher,
        show t.searchStart.mode = s.searchStart.mode from hm]
    rw [ImeLogic.runSearch, ImeLogic.runSearch, if_neg hs, if_neg ht, hv]
    cases s.searchStart.v4Searcher env with
    | some cs =>
      have hrs := run_search_v4_retains s.searchStart cs
      have hrt := run_search_v4_retains t.searchStart cs
      obtain ⟨hms, hks, hhs, hns⟩ := base_keys hrs.base
      obtain ⟨hmt, hkt, hht, hnt⟩ := base_keys hrt.base
      exact prepend_candidates_congr (hmt.trans (hm.trans hms.symm))
        (hkt.trans (hk.trans hks.symm)) (hht.trans (hh.trans hhs.symm))
        (hnt.trans (hn.trans hns.symm)) (hrt.lru.trans (hl.trans hrs.lru.symm))
        (v4_candidates_congr cs t.searchStart s.searchStart hk hh hn rfl)
    | none =>
      have hrs := legacy_retains env s.searchStart
      have hrt := legacy_retains env t.searchStart
      obtain ⟨hms, hks, hhs, hns⟩ := base_keys hrs.base
      obtain ⟨hmt, hkt, hht, hnt⟩ := base_keys hrt.base
      exact prepend_candidates_congr (hmt.trans (hm.trans hms.symm))
        (hkt.trans (hk.trans hks.symm)) (hht.trans (hh.trans hhs.symm))
        (hnt.trans (hn.trans hns.symm)) (hrt.lru.trans (hl.trans hrs.lru.symm))
        (legacy_candidates_congr hm hk rfl)

end Congr

/-- The candidates, in particular their prefix lengths, are those that a fresh
search would list. -/
def Coherent (env : Env) (s : ImeLogic) : Prop := s.candidates = (s.runSearch env).candidates

section Coherent

variable {env : Env} {s t : ImeLogic}

theorem coherent_of_core (hc : t.core = s.core) (hl : t.lru = s.lru) (h : Coherent env s) :
    Coherent env t := by
  simp only [ImeLogic.core, Prod.mk.injEq] at hc
  obtain ⟨hm, hk, hh, hcand⟩ := hc
  rw [Coherent, hcand, run_search_congr hm hk hh hl]
  exact h

theorem coherent_search (u : ImeLogic) : Coherent env (u.runSearch env) := by
  obtain ⟨hm, hk, hh, -⟩ := base_keys (run_search_base env u)
  exact (run_search_congr hm hk hh (run_search_lru env u)).symm

theorem coherent_moved {committed : Prop} (h : Moved env s t committed) : Coherent env t := by
  cases h with
  | searched u ready face cache lru =>
    exact coherent_of_core (core_of_face face) (cache.trans (run_search_lru env u).symm)
      (coherent_search u)
  | cleared keys candidates blank lru => rw [Coherent, candidates, run_search_nil keys]

theorem coherent_outcome {committed dropped : Prop} (hs : Coherent env s)
    (h : Outcome env s t committed dropped) : Coherent env t := by
  cases h with
  | shown h =>
    cases h with
    | same face lru why => exact coherent_of_core (core_of_face face) lru hs
    | moved h => exact coherent_moved h
    | labelled u under h =>
      apply coherent_of_core h.core h.lru
      rcases under with rfl | under
      · exact hs
      · exact coherent_moved under
  | dropped h why => exact coherent_of_core h.core h.lru hs

end Coherent

/-- The cache is loaded between two compositions, as at the start. -/
def LoadsIdle (s : ImeLogic) : Call → Prop
  | .loadLru _ => s.keySeqLen = 0
  | _ => True

instance (s : ImeLogic) (c : Call) : Decidable (LoadsIdle s c) :=
  match c with
  | .loadLru _ => inferInstanceAs (Decidable (s.keySeqLen = 0))
  | .processKey _ | .tick _ | .abort | .setSelected _ | .setTextContext _ => isTrue trivial

theorem coherent_apply (env : Env) (s : ImeLogic) (hi : Inv s) (hs : Coherent env s) (c : Call)
    (hc : LoadsIdle s c) : Coherent env (s.apply env c) := by
  cases c with
  | loadLru buf =>
    have hz : s.keySeqLen = 0 := hc
    have hnil : s.candidates = [] := by rw [hs, run_search_nil hz]
    have hnil' : ((s.apply env (.loadLru buf)).runSearch env).candidates = [] := run_search_nil hz
    exact hnil.trans hnil'.symm
  | _ => exact coherent_outcome hs (apply_outcome env s hi _ (fun _ => Call.noConfusion))

/-- After every call of a run in which the cache is loaded, if at all, while
nothing is composed, the candidates with their words, tones and prefix lengths are
those of a fresh search. -/
theorem candidates_coherent (env : Env) (calls : List Call)
    (h : Along (callStep env) LoadsIdle .init calls) :
    (ImeLogic.run env calls).candidates = ((ImeLogic.run env calls).runSearch env).candidates := by
  have hrun : Inv (.run env calls) ∧ Coherent env (.run env calls) := by
    apply exec_invariant (callStep env) LoadsIdle (fun s => Inv s ∧ Coherent env s) _ calls
      ImeLogic.init _ ⟨inv_init, (run_search_nil rfl).symm⟩ h (exec_run env calls)
    intro s c t hs hc ht
    exact Option.some.inj ht ▸ ⟨inv_apply env s hs.1 c, coherent_apply env s hs.1 hs.2 c hc⟩
  exact hrun.2

/-- The candidate 八 for ㄅㄧ consumes ㄅ only, and is what a fresh search lists. -/
def twoKeys : List Call := [.loadLru [], press 0x01 0, press 0x0A 1]

theorem two_keys_coherent : (ImeLogic.run oneWordEnv twoKeys).candidates.map Prod.snd = [1] ∧
    (ImeLogic.run oneWordEnv twoKeys).candidates =
      ((ImeLogic.run oneWordEnv twoKeys).runSearch oneWordEnv).candidates :=
  ⟨by decide +kernel, candidates_coherent oneWordEnv twoKeys (by decide +kernel)⟩

end MokyaLora.Ime
