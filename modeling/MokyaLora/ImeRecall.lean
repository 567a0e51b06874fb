import MokyaLora.ImeCoherent
import MokyaLora.LruRecall

/-!
# Learn, then recall
-/

set_option autoImplicit false

namespace MokyaLora.Ime
open Lib.Fields Lib.Memory Lib.Schedule

section Learn

variable (env : Env) (s : ImeLogic)

theorem consume_lru (n : ℕ) : (s.consumeKeys n).lru = s.lru := by
  have h := consume_consumed s n
  rw [Consumed] at h
  rw [h]

theorem commit_partial_lru (site : CommitSite) (str : Bytes) (n : ℕ) (h : str ≠ []) :
    (s.commitPartial env site str n).lru = (s.learn str n).lru := by
  rw [ImeLogic.commitPartial, run_search_lru, consume_lru, if_neg h,
    (log_face env _ _).2, (did_commit_face _ _).2]

variable (c : Candidate) (p : ℕ) (hsel : s.candidates[s.selected]? = some (c, p))

include hsel

theorem commit_selected_lru (hi : Inv s) (hzh : s.mode = .smartZh) (hword : c.word ≠ []) :
    (s.commitSelectedCandidate env).lru = s.lru.upsert (s.keys.take p)
      (lruPackPhonemeHints (s.hints.take p)) (UInt8.ofNat c.tone) c.word s.nowMsCache := by
  obtain ⟨hlt, -⟩ := List.getElem?_eq_some_iff.mp hsel
  obtain ⟨hpos, hle⟩ := hi.candidates.prefixes (c, p) (List.mem_of_getElem? hsel)
  have htake : c.word.take (kCandidateMaxBytes-1) = c.word :=
    List.take_of_length_le (Nat.le_sub_one_of_lt c.fits)
  have hen : ¬ (s.mode = .smartEn ∧ s.enCapitalizeNext = true) := by simp [hzh]
  have hspace : ¬ (s.mode = .smartEn ∧ ¬ s.enLastEndedWithSpace = true) := by simp [hzh]
  rw [ImeLogic.commitSelectedCandidate]
  dsimp only
  rw [if_pos hlt, hsel]
  dsimp only
  rw [if_neg hen, if_neg hspace, htake, commit_partial_lru env s _ _ _ hword, ImeLogic.learn,
    if_pos ⟨hzh, hpos, hle⟩]
  dsimp only
  rw [if_pos hlt, hsel]

end Learn

theorem commit_step (env : Env) (s : ImeLogic) (ev : KeyEvent) (hzh : s.mode = .smartZh)
    (h : CommitsCandidate s (.processKey ev)) (hi : Inv s) :
    (s.apply env (.processKey ev)).lru =
      ((s.stampNow ev.nowMs).commitSelectedCandidate env).lru ∧
    Coherent env (s.apply env (.processKey ev)) := by
  obtain ⟨hrouted, hc, hwhy⟩ := h
  have hcand : (s.stampNow ev.nowMs).hasCandidates = true := hc
  have hmoved := commit_selected_outcome env (s.stampNow ev.nowMs) (inv_stamp s hi _) hcand
  rcases hwhy with ⟨hmode, hidle⟩ | hok | ⟨hen, -⟩
  · have hstep : s.apply env (.processKey ev) = (s.stampNow ev.nowMs).cycleMode env := by
      exact congrArg Prod.fst (dispatch_mode env (s.stampNow ev.nowMs) ev hrouted hmode)
    have hidle' : ¬ (s.stampNow ev.nowMs).multitapPending := hidle
    rw [hstep, ImeLogic.cycleMode, if_neg hidle', if_pos hcand]
    constructor
    · exact (log_face env _ _).2
    · exact coherent_moved ((cleared_outcome env (s.stampNow ev.nowMs) _ True (.inr trivial) _ _).then
        (log_face env _ _))
  · have hstep : s.apply env (.processKey ev) = ((s.stampNow ev.nowMs).handleOk env).1 := by
      exact congrArg Prod.fst (dispatch_ok env (s.stampNow ev.nowMs) ev hrouted hok)
    rw [hstep, ImeLogic.handleOk, if_pos hcand]
    constructor
    · exact (log_face env _ _).2
    · exact coherent_moved (hmoved.then (log_face env _ _))
  · rw [hzh] at hen
    cases hen

/-- The call neither commits a candidate nor loads the cache. -/
def LearnsNothing (s : ImeLogic) (c : Call) : Prop :=
  ¬ CommitsCandidate s c ∧ ∀ buf, c ≠ .loadLru buf

section Later

variable {env : Env} {s t : ImeLogic}

theorem moved_lru {committed : Prop} (hc : ¬ committed) (h : Moved env s t committed) :
    t.lru = s.lru := by
  cases h with
  | searched u ready face cache lru => exact cache.trans (lru.resolve_right hc)
  | cleared keys candidates blank lru => exact lru.resolve_right hc

theorem outcome_lru {committed dropped : Prop} (hc : ¬ committed)
    (h : Outcome env s t committed dropped) : t.lru = s.lru := by
  cases h with
  | shown h =>
    cases h with
    | same face lru why => exact lru
    | moved h => exact moved_lru hc h
    | labelled u under h =>
      rcases under with rfl | under
      · exact h.lru
      · exact h.lru.trans (moved_lru hc under)
  | dropped h why => exact h.lru

theorem later_lru (calls : List Call) (hi : Inv s) (hs : Coherent env s)
    (h : Along (callStep env) LearnsNothing s calls)
    (ht : exec (callStep env) s calls = some t) : Inv t ∧ Coherent env t ∧ t.lru = s.lru := by
  apply exec_invariant (callStep env) LearnsNothing
    (fun u => Inv u ∧ Coherent env u ∧ u.lru = s.lru) _ calls s t ⟨hi, hs, rfl⟩ h ht
  intro u c v hu hc hv
  have ho := apply_outcome env u hu.1 c hc.2
  rw [← Option.some.inj hv]
  exact ⟨inv_apply env u hu.1 c, coherent_outcome hu.2.1 ho, (outcome_lru hc.1 ho).trans hu.2.2⟩

end Later

/-- What the cache finds stands in front, and no candidate behind it has one of its
words. -/
theorem prepend_hits (s : ImeLogic) (hzh : s.mode = .smartZh) (hk : s.keySeqLen ≠ 0)
    (hits : List (Candidate × ℕ)) (hne : hits ≠ [])
    (h : s.lru.lookup s.keys (some s.hints) kMaxCandidates = hits) :
    ∃ rest, s.prependLruCandidates.candidates = hits++rest ∧
      ∀ q ∈ rest, listed hits q.1 = false := by
  have hno : ¬ (s.mode ≠ .smartZh ∨ s.keySeqLen = 0) := by
    rintro (h | h)
    · exact h hzh
    · exact hk h
  rw [ImeLogic.prependLruCandidates, if_neg hno]
  dsimp only
  rw [h, if_neg hne]
  refine ⟨_, rfl, ?_⟩
  intro q hq
  simpa using (List.mem_filter.mp (List.mem_of_mem_take hq)).2

theorem search_hits (env : Env) (s : ImeLogic) (hzh : s.mode = .smartZh) (hk : s.keySeqLen ≠ 0)
    (hits : List (Candidate × ℕ)) (hne : hits ≠ [])
    (h : s.lru.lookup s.keys (some s.hints) kMaxCandidates = hits) :
    ∃ rest, (s.runSearch env).candidates = hits++rest ∧ ∀ q ∈ rest, listed hits q.1 = false := by
  have hfront : ∀ u : ImeLogic, u.base = s.searchStart.base → u.lru = s.lru →
      ∃ rest, u.prependLruCandidates.candidates = hits++rest ∧
        ∀ q ∈ rest, listed hits q.1 = false := by
    intro u hb hl
    obtain ⟨hm, hkeys, hhints, hlen⟩ := base_keys hb
    apply prepend_hits u (hm.trans hzh) (hlen.trans_ne hk) hits hne
    rw [hl, hkeys, hhints]
    exact h
  have hstart : ¬ s.searchStart.keySeqLen = 0 := hk
  rw [ImeLogic.runSearch, if_neg hstart]
  cases s.searchStart.v4Searcher env with
  | some cs =>
    have hr := run_search_v4_retains s.searchStart cs
    exact hfront _ hr.base hr.lru
  | none =>
    have hr := legacy_retains env s.searchStart
    exact hfront _ hr.base hr.lru

/-- A candidate of at most eight keys and a word of at most 24 bytes that is
committed in SmartZh, later than any use that is stored, stands in front, with its
number of keys, whenever these keys with these hints are all that is typed, and its
word is listed once; until another candidate is committed or a cache loaded. -/
theorem learned_first (env : Env) (calls later : List Call) (s t : ImeLogic) (ev : KeyEvent)
    (c : Candidate) (p : ℕ) (hs : s = .run env calls) (hzh : s.mode = .smartZh)
    (hcommit : CommitsCandidate s (.processKey ev))
    (hsel : s.candidates[s.selected]? = some (c, p)) (hp : p ≤ 8)
    (hword : 1 ≤ c.word.length ∧ c.word.length ≤ 24) (hnul : (0 : UInt8) ∉ c.word)
    (htime : ∀ e ∈ s.lru.entries, e.lastUsedMs < ev.nowMs)
    (hlater : Along (callStep env) LearnsNothing (s.apply env (.processKey ev)) later)
    (ht : exec (callStep env) (s.apply env (.processKey ev)) later = some t)
    (hzh' : t.mode = .smartZh) (hkeys : t.keys = s.keys.take p)
    (hhints : t.hints = s.hints.take p) :
    ∃ d rest, t.candidates = (d, p)::rest ∧ d.word = c.word ∧ ∀ q ∈ rest, q.1.word ≠ c.word := by
  have hi : Inv s := hs ▸ inv_run env calls
  obtain ⟨hpos, hle⟩ := hi.candidates.prefixes (c, p) (List.mem_of_getElem? hsel)
  obtain ⟨hlearned, hcoherent⟩ := commit_step env s ev hzh hcommit hi
  obtain ⟨hit, hct, hlru⟩ := later_lru later (inv_apply env s hi _) hcoherent hlater ht
  have hlen : (s.keys.take p).length = p := by
    rw [List.length_take, ImeLogic.keys, bytes_length]
    exact Nat.min_eq_left hle
  have hcache : t.lru = s.lru.upsert (s.keys.take p) (lruPackPhonemeHints (s.hints.take p))
      (UInt8.ofNat c.tone) c.word ev.nowMs := by
    rw [hlru, hlearned]
    exact commit_selected_lru env (s.stampNow ev.nowMs) c p hsel (inv_stamp s hi _) hzh
      (List.length_pos_iff.mp hword.1)
  have hok : ∀ h ∈ s.hints.take p, HintOk h := by
    intro h hh
    obtain ⟨i, -, rfl⟩ := (mem_bytes _ _ _).mp (List.mem_of_mem_take hh)
    exact hi.ready.keys.value i
  obtain ⟨d, hits, hlookup, hd, hdup⟩ := LruCache.learn_recall s.lru (s.keys.take p) c.word
    (UInt8.ofNat c.tone) ev.nowMs (s.hints.take p) ⟨⟨by omega, by omega⟩, hword⟩ hok hnul htime
    kMaxCandidates (by decide)
  rw [← hcache, hlen, ← hkeys, ← hhints] at hlookup
  have hk : t.keySeqLen ≠ 0 := by
    have := congrArg List.length hkeys
    rw [hlen, ImeLogic.keys, bytes_length] at this
    omega
  obtain ⟨rest, hrest, hnone⟩ := search_hits env t hzh' hk _ (List.cons_ne_nil _ _) hlookup
  refine ⟨d, hits++rest, hct.trans hrest, hd, ?_⟩
  intro q hq
  rcases List.mem_append.mp hq with hq | hq
  · exact hdup q hq
  · intro hsame
    have hno := hnone q hq
    rw [listed, List.any_cons, Bool.or_eq_false_iff] at hno
    exact of_decide_eq_false hno.1 (hd.trans hsame.symm)

/-- The state with the candidate 八 for ㄅ, and the same key typed again after `OK`
has committed it. -/
theorem eight_first : ∃ d rest, (ImeLogic.run oneWordEnv
      [press 0x01 0, press mokyaKeyOk 5, press 0x01 6]).candidates = (d, 1)::rest ∧
    d.word = utf8 '八' ∧ ∀ q ∈ rest, q.1.word ≠ utf8 '八' := by
  have hc : ∃ c : Candidate, (ImeLogic.run oneWordEnv [press 0x01 0]).candidates[0]? =
      some (c, 1) ∧ c.word = utf8 '八' := by
    have hsome : ((ImeLogic.run oneWordEnv [press 0x01 0]).candidates[0]?).map
        (fun q => (q.1.word, q.2)) = some (utf8 '八', 1) := by decide +kernel
    obtain ⟨⟨c, n⟩, hq, hw⟩ := Option.map_eq_some_iff.mp hsome
    simp only [Prod.mk.injEq] at hw
    exact ⟨c, by rw [hq, hw.2], hw.1⟩
  obtain ⟨c, hsel, hw⟩ := hc
  rw [← hw]
  apply learned_first oneWordEnv [press 0x01 0] [press 0x01 6] _ _ ⟨mokyaKeyOk, true, 5, 0⟩ c 1 rfl
  · decide +kernel
  · exact ⟨⟨by decide, by decide, rfl, by decide +kernel⟩, by decide +kernel, .inr (.inl rfl)⟩
  · exact hsel
  · decide
  · rw [hw]
    decide
  · rw [hw]
    decide
  · have hempty : (ImeLogic.run oneWordEnv [press 0x01 0]).lru.entries = [] := by decide +kernel
    rw [hempty]
    intro e he
    cases he
  · exact ⟨⟨fun h => absurd h.2.1 (by decide +kernel), fun _ => Call.noConfusion⟩,
      fun _ _ => trivial⟩
  · rfl
  · decide +kernel
  · decide +kernel
  · decide +kernel

end MokyaLora.Ime
