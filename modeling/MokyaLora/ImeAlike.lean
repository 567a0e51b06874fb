import MokyaLora.ImeOutcome

/-!
# Two states that differ in their clocks

Two objects run beside each other. They agree on everything but the times that they
store, the long-press cycle, the cache and the log; how these are related is a
parameter. The handlers keep two such states alike when they are called at related
times.
-/

set_option autoImplicit false

namespace MokyaLora.Ime
open Lib.Fields Lib.Memory

def Event.text : Event → Option Bytes
  | .commit _ str => some str
  | .cursorMove _ | .deleteBefore | .compositionChanged => none

def KeyEvent.stamped (ev : KeyEvent) (nowMs : UInt32) : KeyEvent := { ev with nowMs }

inductive Timed where
  | key (ev : KeyEvent)
  | tick (nowMs : UInt32)
  deriving DecidableEq

namespace Timed

def call : Timed → Call
  | key ev => .processKey ev
  | tick nowMs => .tick nowMs

def nowMs : Timed → UInt32
  | key ev => ev.nowMs
  | tick nowMs => nowMs

def later (c : UInt32) : Timed → Timed
  | key ev => key (ev.stamped (ev.nowMs+c))
  | tick nowMs => tick (nowMs+c)

end Timed

/-- What the two states may differ in. -/
structure Clocks where
  multitapMs : UInt32
  sym1Ms : UInt32
  lpCycle : LpCycleState
  lru : LruCache
  nowMs : UInt32
  events : List Event

namespace ImeLogic

def commits (s : ImeLogic) : List Bytes := s.events.filterMap Event.text

def withClocks (s : ImeLogic) (k : Clocks) : ImeLogic :=
  { s with
    multitap := { s.multitap with lastMs := k.multitapMs }
    sym1 := { s.sym1 with pressedAtMs := k.sym1Ms }
    lpCycle := k.lpCycle
    lru := k.lru
    nowMsCache := k.nowMs
    events := k.events }

def picked (s : ImeLogic) : Option (Candidate × ℕ) :=
  s.candidates[if s.selected < s.candidates.length then s.selected else 0]?

def timers (s : ImeLogic) : MultiTapState × Sym1State × LpCycleState × LruCache × List Event :=
  (s.multitap, s.sym1, s.lpCycle, s.lru, s.events)

end ImeLogic

/-- How stored times, cycles that are over and caches correspond. -/
structure Likeness where
  times : UInt32 → UInt32 → Prop
  past : LpCycleState → Prop
  caches : LruCache → LruCache → Prop

def CyclesAlike (r : Likeness) (a b : LpCycleState) : Prop :=
  r.past a ∧ r.past b ∨ b = { a with lastMs := b.lastMs } ∧ r.times a.lastMs b.lastMs

structure Alike (r : Likeness) (s t : ImeLogic) : Prop where
  same : ∃ k, t = s.withClocks k
  commits : t.commits = s.commits
  multitap : s.multitapPending → r.times s.multitap.lastMs t.multitap.lastMs
  sym1 : s.sym1.down = true → r.times s.sym1.pressedAtMs t.sym1.pressedAtMs
  cycle : CyclesAlike r s.lpCycle t.lpCycle
  lru : r.caches s.lru t.lru

def LearnAlike (r : Likeness) (s t : ImeLogic) : Prop :=
  s.mode = .smartZh → ∀ c p, s.picked = some (c, p) →
    r.caches (s.learn (c.word.take (kCandidateMaxBytes-1)) p).lru
      (t.learn (c.word.take (kCandidateMaxBytes-1)) p).lru

def LooksUpAlike (a b : LruCache) : Prop :=
  ∀ keys hints maxResults, b.lookup keys hints maxResults = a.lookup keys hints maxResults

/-- Calls at `n` and `n'` cannot tell the two states apart. -/
structure Sound (r : Likeness) (n n' : UInt32) : Prop where
  now : r.times n n'
  elapsed : ∀ a b, r.times a b → n'-b = n-a
  ended : ∀ a, a.byteIndex = none → r.past a
  late : ∀ a, r.past a → a.byteIndex ≠ none →
    ¬ n-a.lastMs < kMultiTapTimeoutMs ∧ ¬ n'-a.lastMs < kMultiTapTimeoutMs
  lookup : ∀ a b, r.caches a b → LooksUpAlike a b

section Search

variable (env : Env) (s : ImeLogic) (k : Clocks)

theorem rebuild_from_clocks (keys : List (UInt8 × UInt8)) (i : ℕ) (acc : Bytes × ℕ) :
    (s.withClocks k).rebuildFrom i keys acc = s.rebuildFrom i keys acc := by
  induction keys generalizing i acc with
  | nil => rfl
  | cons key keys ih =>
    obtain ⟨b, hint⟩ := key
    obtain ⟨display, matched⟩ := acc
    rw [ImeLogic.rebuildFrom, ImeLogic.rebuildFrom, ih]
    rfl

theorem rebuild_clocks :
    (s.withClocks k).rebuildDisplaySmart = s.rebuildDisplaySmart.withClocks k := by
  rw [ImeLogic.rebuildDisplaySmart, ImeLogic.rebuildDisplaySmart, rebuild_from_clocks]
  rfl

theorem legacy_clocks :
    (s.withClocks k).runSearchV2Legacy env = (s.runSearchV2Legacy env).withClocks k := by
  have ha : (s.withClocks k).activeSearcher env = s.activeSearcher env := rfl
  rw [ImeLogic.runSearchV2Legacy, ImeLogic.runSearchV2Legacy, ha]
  cases s.activeSearcher env with
  | none => exact rebuild_clocks s k
  | some searcher => exact rebuild_clocks { s with
      candidates := (legacyLoop searcher s.keys (strippedKeys s.keys).length ([], 0)).1
      matchedPrefixKeys := (legacyLoop searcher s.keys (strippedKeys s.keys).length ([], 0)).2 } k

theorem v4_clocks (cs : CompositionSearch) :
    (s.withClocks k).runSearchV4 cs = (s.runSearchV4 cs).withClocks k := by
  have hp : (s.withClocks k).positions cs = s.positions cs := rfl
  rw [ImeLogic.runSearchV4, ImeLogic.runSearchV4, hp]
  by_cases h0 : s.positions cs = 0
  · rw [if_pos h0, if_pos h0]
  · rw [if_neg h0, if_neg h0]
    by_cases h4 : s.positions cs ≤ 4
    · rw [if_pos h4, if_pos h4]
      rfl
    · rw [if_neg h4, if_neg h4]
      rfl

theorem prepend_clocks (h : LooksUpAlike s.lru k.lru) :
    (s.withClocks k).prependLruCandidates = s.prependLruCandidates.withClocks k := by
  by_cases hno : s.mode ≠ .smartZh ∨ s.keySeqLen = 0
  · have hno' : (s.withClocks k).mode ≠ .smartZh ∨ (s.withClocks k).keySeqLen = 0 := hno
    rw [ImeLogic.prependLruCandidates, ImeLogic.prependLruCandidates, if_pos hno, if_pos hno']
  · have hno' : ¬ ((s.withClocks k).mode ≠ .smartZh ∨ (s.withClocks k).keySeqLen = 0) := hno
    have hl : (s.withClocks k).lru.lookup (s.withClocks k).keys (some (s.withClocks k).hints)
        kMaxCandidates = s.lru.lookup s.keys (some s.hints) kMaxCandidates := h _ _ _
    rw [ImeLogic.prependLruCandidates, ImeLogic.prependLruCandidates, if_neg hno, if_neg hno', hl]
    by_cases hnil : s.lru.lookup s.keys (some s.hints) kMaxCandidates = []
    · rw [if_pos hnil, if_pos hnil]
    · rw [if_neg hnil, if_neg hnil]
      rfl

theorem run_search_clocks (h : LooksUpAlike s.lru k.lru) :
    (s.withClocks k).runSearch env = (s.runSearch env).withClocks k := by
  have hstart : (s.withClocks k).searchStart = s.searchStart.withClocks k := rfl
  rw [ImeLogic.runSearch, ImeLogic.runSearch, hstart]
  by_cases h0 : s.searchStart.keySeqLen = 0
  · have h0' : (s.searchStart.withClocks k).keySeqLen = 0 := h0
    rw [if_pos h0, if_pos h0', rebuild_clocks]
  · have h0' : ¬ (s.searchStart.withClocks k).keySeqLen = 0 := h0
    have hv : (s.searchStart.withClocks k).v4Searcher env = s.searchStart.v4Searcher env := rfl
    rw [if_neg h0, if_neg h0', hv]
    cases s.searchStart.v4Searcher env with
    | none =>
      dsimp only
      rw [legacy_clocks, prepend_clocks]
      rwa [(legacy_retains env _).lru]
    | some cs =>
      dsimp only
      rw [v4_clocks, prepend_clocks, rebuild_clocks]
      rwa [(run_search_v4_retains _ cs).lru]

theorem run_search_timers : (s.runSearch env).timers = s.timers := by
  have h := run_search_retains env s
  rw [Retains] at h
  rw [h]
  rfl

theorem learn_only (str : Bytes) (p : ℕ) :
    s.learn str p = { s with lru := (s.learn str p).lru } := by
  unfold ImeLogic.learn
  split <;> rfl

theorem emit_mode (site : CommitSite) (str : Bytes) : (s.emitCommit env site str).mode = s.mode :=
  congrArg (fun b => b.1) (emit_commit_quiet env s site str).1

theorem tick_eq (nowMs : UInt32) : s.tick env nowMs =
    let e := (s.stampNow nowMs).expireMultitap env nowMs
    let o := e.1.openPicker nowMs
    if e.2 || o.2 then ((o.1.lockCycle nowMs).notifyChanged env, true)
    else (o.1.lockCycle nowMs, false) := rfl

theorem lock_cycle_eq (nowMs : UInt32) : s.lockCycle nowMs = { s with
    lpCycle :=
      if s.lpCycle.byteIndex ≠ none ∧ kMultiTapTimeoutMs ≤ nowMs-s.lpCycle.lastMs then
        { s.lpCycle with byteIndex := none }
      else s.lpCycle } := by
  unfold ImeLogic.lockCycle
  split <;> rfl

theorem long_press_due (slot i : ℕ) (e : KeyEntry) (nowMs : UInt32)
    (hb : s.lpCycle.byteIndex = some i) (hs : s.lpCycle.slot = some slot)
    (h : nowMs-s.lpCycle.lastMs < kMultiTapTimeoutMs) (idx : ℕ)
    (hidx : (s.lpCycle.phonemeIdx+1) % (if e.phonemes.length = 0 then 1 else e.phonemes.length) =
      idx) :
    s.smartLongPress env slot e nowMs =
      ({ s with
        lpCycle := ⟨some i, some slot, idx, nowMs⟩
        phonemeHint := store s.phonemeHint i (UInt8.ofNat idx) }.keysChanged env, true) := by
  rw [ImeLogic.smartLongPress]
  dsimp only
  rw [hb, hidx]
  dsimp only
  rw [if_pos ⟨hs, h⟩, hs]

theorem long_press_late (slot : ℕ) (e : KeyEntry) (nowMs : UInt32)
    (h : s.lpCycle.byteIndex ≠ none → ¬ (s.lpCycle.slot = some slot ∧
      nowMs-s.lpCycle.lastMs < kMultiTapTimeoutMs)) :
    s.smartLongPress env slot e nowMs = ImeLogic.smartLongPress.appendLong env s slot nowMs := by
  rw [ImeLogic.smartLongPress]
  dsimp only
  cases hb : s.lpCycle.byteIndex with
  | none => rfl
  | some i => exact if_neg (h (by simp [hb]))

end Search

theorem branch_reply {R : ImeLogic → ImeLogic → Prop} {p q : Prop} [Decidable p] [Decidable q]
    {x y x' y' : ImeLogic × Bool} (hpq : p ↔ q) (hs : p → R x.1 y.1) (ht : ¬ p → R x'.1 y'.1) :
    R (if p then x else x').1 (if q then y else y').1 := by
  by_cases h : p
  · rw [if_pos h, if_pos (hpq.mp h)]
    exact hs h
  · rw [if_neg h, if_neg (fun hq => h (hpq.mpr hq))]
    exact ht h

namespace Alike

variable {r : Likeness} {s t : ImeLogic} (env : Env)

theorem candidates (h : Alike r s t) : t.candidates = s.candidates := by
  obtain ⟨k, rfl⟩ := h.same
  rfl

theorem mode_iff (h : Alike r s t) (m : InputMode) : s.mode = m ↔ t.mode = m := by
  obtain ⟨k, rfl⟩ := h.same
  rfl

theorem of_timers {s' t' : ImeLogic} (h : Alike r s t) (hsame : ∃ k, t' = s'.withClocks k)
    (hs : s'.timers = s.timers) (ht : t'.timers = t.timers) : Alike r s' t' := by
  simp only [ImeLogic.timers, Prod.mk.injEq] at hs ht
  obtain ⟨hms, hys, hcs, hls, hes⟩ := hs
  obtain ⟨hmt, hyt, hct, hlt, het⟩ := ht
  constructor
  · exact hsame
  · rw [ImeLogic.commits, ImeLogic.commits, hes, het]
    exact h.commits
  · rw [ImeLogic.multitapPending, hms, hmt]
    exact h.multitap
  · rw [hys, hyt]
    exact h.sym1
  · rw [hcs, hct]
    exact h.cycle
  · rw [hls, hlt]
    exact h.lru

theorem map (f : ImeLogic → ImeLogic) (hf : ∀ s k, f (s.withClocks k) = (f s).withClocks k)
    (hk : ∀ s, (f s).timers = s.timers) (h : Alike r s t) : Alike r (f s) (f t) := by
  obtain ⟨k, hsame⟩ := h.same
  exact h.of_timers ⟨k, by rw [hsame, hf]⟩ (hk s) (hk t)

theorem log (e : Event) (h : Alike r s t) : Alike r (s.log env e) (t.log env e) := by
  obtain ⟨k, rfl⟩ := h.same
  unfold ImeLogic.log
  by_cases hl : env.listener = true
  · rw [if_pos hl, if_pos hl]
    constructor
    · exact ⟨{ k with events := k.events++[e] }, rfl⟩
    · have hc := h.commits
      simp only [ImeLogic.commits, List.filterMap_append] at hc ⊢
      rw [hc]
    · exact h.multitap
    · exact h.sym1
    · exact h.cycle
    · exact h.lru
  · rw [if_neg hl, if_neg hl]
    exact h

theorem notify_changed (h : Alike r s t) : Alike r (s.notifyChanged env) (t.notifyChanged env) :=
  h.log env _

theorem branch {p q : Prop} [Decidable p] [Decidable q] {s' t' : ImeLogic} (hpq : p ↔ q)
    (hs : p → Alike r s t) (ht : ¬ p → Alike r s' t') :
    Alike r (if p then s else s') (if q then t else t') := by
  by_cases h : p
  · rw [if_pos h, if_pos (hpq.mp h)]
    exact hs h
  · rw [if_neg h, if_neg (fun hq => h (hpq.mpr hq))]
    exact ht h

theorem did_commit (str : Bytes) (h : Alike r s t) : Alike r (s.didCommit str) (t.didCommit str) := by
  have hspace := h.map (fun s => { s with enLastEndedWithSpace := endsWithSpace str })
    (fun _ _ => rfl) (fun _ => rfl)
  exact branch Iff.rfl (fun _ => h) (fun _ => branch Iff.rfl (fun _ => hspace) (fun _ =>
    hspace.map (fun s => { s with enCapitalizeNext := endsSentence str }) (fun _ _ => rfl)
      (fun _ => rfl)))

theorem emit_commit (site : CommitSite) (str : Bytes) (h : Alike r s t) :
    Alike r (s.emitCommit env site str) (t.emitCommit env site str) :=
  branch Iff.rfl (fun _ => h) (fun _ => (h.did_commit str).log env _)

theorem multitap_clear (h : Alike r s t) : Alike r s.multitapClear t.multitapClear := by
  obtain ⟨k, rfl⟩ := h.same
  exact ⟨⟨{ k with multitapMs := 0 }, rfl⟩, h.commits, fun hp => absurd rfl hp, h.sym1, h.cycle,
    h.lru⟩

theorem multitap_commit (h : Alike r s t) :
    Alike r (s.multitapCommit env) (t.multitapCommit env) := by
  obtain ⟨k, rfl⟩ := h.same
  refine branch Iff.rfl (fun _ => h) (fun _ => ?_)
  have hclear := (branch Iff.rfl (fun _ => h) (fun _ => (h.did_commit s.display).log env
    (.commit (.multitap s.multitap.keycode s.multitap.slotIdx s.mode) s.display))
      (p := s.display = [])).multitap_clear
  exact branch (and_congr Iff.rfl (hclear.mode_iff _)) (fun _ => hclear.emit_commit env _ _)
    (fun _ => hclear)

theorem keys_drop (p : ℕ) (h : Alike r s t) : Alike r (s.keysDrop p) (t.keysDrop p) :=
  h.map (fun s => s.keysDrop p) (fun _ _ => rfl) (fun _ => rfl)

theorem strip_tones (n : ℕ) (h : Alike r s t) :
    Alike r (ImeLogic.stripTones n s) (ImeLogic.stripTones n t) := by
  induction n generalizing s t with
  | zero => exact h
  | succ n ih =>
    obtain ⟨k, rfl⟩ := h.same
    exact branch Iff.rfl (fun _ => ih (h.keys_drop 1)) (fun _ => h)

theorem with_cycle {c c' : LpCycleState} (hc : CyclesAlike r c c') (h : Alike r s t) :
    Alike r { s with lpCycle := c } { t with lpCycle := c' } := by
  obtain ⟨k, rfl⟩ := h.same
  exact ⟨⟨{ k with lpCycle := c' }, rfl⟩, h.commits, h.multitap, h.sym1, hc, h.lru⟩

theorem with_lru {a b : LruCache} (hl : r.caches a b) (h : Alike r s t) :
    Alike r { s with lru := a } { t with lru := b } := by
  obtain ⟨k, rfl⟩ := h.same
  exact ⟨⟨{ k with lru := b }, rfl⟩, h.commits, h.multitap, h.sym1, h.cycle, hl⟩

variable {n n' : UInt32} (hr : Sound r n n')

include hr

theorem uncycled (h : Alike r s t) :
    Alike r { s with lpCycle := .none } { t with lpCycle := .none } :=
  h.with_cycle (.inl ⟨hr.ended _ rfl, hr.ended _ rfl⟩)

theorem consume_keys (p : ℕ) (h : Alike r s t) : Alike r (s.consumeKeys p) (t.consumeKeys p) := by
  obtain ⟨k, rfl⟩ := h.same
  have hdrop := branch (p := 0 < if 0 < p ∧ p ≤ s.keySeqLen then p else s.keySeqLen) Iff.rfl
    (fun _ => h.keys_drop (if 0 < p ∧ p ≤ s.keySeqLen then p else s.keySeqLen)) (fun _ => h)
  have hlen : ∀ {s t : ImeLogic}, Alike r s t →
      Alike r (ImeLogic.stripTones s.keySeqLen s) (ImeLogic.stripTones t.keySeqLen t) := by
    intro s t h
    obtain ⟨k, rfl⟩ := h.same
    exact h.strip_tones s.keySeqLen
  exact ((hlen hdrop).map (fun s => { s with
    keySeq := store s.keySeq s.keySeqLen 0
    candidates := []
    selected := 0
    matchedPrefixBytes := 0
    matchedPrefixKeys := 0 }) (fun _ _ => rfl) (fun _ => rfl)).uncycled hr

theorem run_search (h : Alike r s t) : Alike r (s.runSearch env) (t.runSearch env) := by
  obtain ⟨k, rfl⟩ := h.same
  exact h.of_timers ⟨k, run_search_clocks env s k (hr.lookup _ _ h.lru)⟩
    (run_search_timers env s) (run_search_timers env (s.withClocks k))

omit hr in
theorem learn (str : Bytes) (p : ℕ) (h : Alike r s t)
    (hl : s.mode = .smartZh → r.caches (s.learn str p).lru (t.learn str p).lru) :
    Alike r (s.learn str p) (t.learn str p) := by
  have hcaches : r.caches (s.learn str p).lru (t.learn str p).lru := by
    by_cases hm : s.mode = .smartZh
    · exact hl hm
    · have hm' : ¬ t.mode = .smartZh := fun hm' => hm ((h.mode_iff _).mpr hm')
      rw [ImeLogic.learn, ImeLogic.learn, if_neg (fun hc => hm hc.1), if_neg (fun hc => hm' hc.1)]
      exact h.lru
  rw [learn_only s, learn_only t]
  exact h.with_lru hcaches

theorem commit_partial (site : CommitSite) (str : Bytes) (p : ℕ) (h : Alike r s t)
    (hl : s.mode = .smartZh → r.caches (s.learn str p).lru (t.learn str p).lru) :
    Alike r (s.commitPartial env site str p) (t.commitPartial env site str p) := by
  have hsaid := branch (p := str = []) Iff.rfl (fun _ => h)
    (fun _ => ((h.learn str p hl).did_commit str).log env (.commit site str))
  exact (hsaid.consume_keys hr p).run_search env hr

theorem commit_selected_candidate (h : Alike r s t)
    (hl : LearnAlike r s t) :
    Alike r (s.commitSelectedCandidate env) (t.commitSelectedCandidate env) := by
  obtain ⟨k, rfl⟩ := h.same
  have hp : (s.withClocks k).picked = s.picked := rfl
  rw [ImeLogic.picked, ImeLogic.picked] at hp
  rw [ImeLogic.commitSelectedCandidate, ImeLogic.commitSelectedCandidate]
  dsimp only
  rw [hp]
  cases hc : s.picked with
  | none =>
    rw [ImeLogic.picked] at hc
    rw [hc]
    exact h
  | some c =>
    obtain ⟨c, p⟩ := c
    have hl := fun hzh => hl hzh c p hc
    rw [ImeLogic.picked] at hc
    rw [hc]
    have hspace := branch (p := s.mode = .smartEn ∧ ¬ s.enLastEndedWithSpace = true) Iff.rfl
      (fun _ => h.emit_commit env .literal [space]) (fun _ => h)
    apply hspace.commit_partial env hr
    by_cases hen : s.mode = .smartEn
    · intro hzh
      have hmode : (if s.mode = .smartEn ∧ ¬ s.enLastEndedWithSpace = true then
          s.emitCommit env .literal [space] else s).mode = s.mode := by
        split
        · exact emit_mode env s _ _
        · rfl
      rw [hmode, hen] at hzh
      cases hzh
    · have hspaced : ¬ (s.mode = .smartEn ∧ ¬ s.enLastEndedWithSpace = true) := fun hc => hen hc.1
      rw [if_neg hspaced, if_neg hspaced, if_neg (fun hc => hen hc.1)]
      exact hl

omit hr in
theorem with_multitap (kc : Keycode) (slotIdx slotCount : ℕ) (inverted : Bool) {a b : UInt32}
    (ht : r.times a b) (h : Alike r s t) :
    Alike r { s with multitap := ⟨kc, slotIdx, slotCount, inverted, a⟩ }
      { t with multitap := ⟨kc, slotIdx, slotCount, inverted, b⟩ } := by
  obtain ⟨k, rfl⟩ := h.same
  exact ⟨⟨{ k with multitapMs := b }, rfl⟩, h.commits, fun _ => ht, h.sym1, h.cycle, h.lru⟩

omit hr in
theorem labelled (label : Bytes) (style : PendingStyle) (h : Alike r s t) :
    Alike r ({ s.displaySet label with
        pendingStyle := style
        matchedPrefixBytes := 0 }.notifyChanged env)
      ({ t.displaySet label with
        pendingStyle := style
        matchedPrefixBytes := 0 }.notifyChanged env) :=
  (h.map (fun s => { s.displaySet label with pendingStyle := style, matchedPrefixBytes := 0 })
    (fun _ _ => rfl) (fun _ => rfl)).notify_changed env

theorem multitap_press (kc : Keycode) (slotCount : ℕ) (inverted : Bool) (h : Alike r s t) :
    Alike r (s.multitapPress env kc slotCount inverted n)
      (t.multitapPress env kc slotCount inverted n') := by
  by_cases hk : s.multitap.keycode = kc
  · obtain ⟨k, rfl⟩ := h.same
    have hk' : (s.withClocks k).multitap.keycode = kc := hk
    rw [ImeLogic.multitapPress, ImeLogic.multitapPress, if_pos hk, if_pos hk']
    have hpress (idx : ℕ) := (h.with_multitap s.multitap.keycode idx s.multitap.slotCount s.multitap.inverted
      hr.now).labelled env ((multitapLabel kc idx s.mode).getD [])
      (if inverted then .inverted else .prefixBold)
    exact hpress _
  · have hcommit := h.multitap_commit env
    have hk' : ¬ t.multitap.keycode = kc := by
      obtain ⟨k, rfl⟩ := h.same
      exact hk
    rw [ImeLogic.multitapPress, ImeLogic.multitapPress, if_neg hk, if_neg hk']
    obtain ⟨k, hsame⟩ := hcommit.same
    rw [hsame] at hcommit ⊢
    have hpress (idx : ℕ) := (hcommit.with_multitap kc idx slotCount inverted hr.now).labelled env
      ((multitapLabel kc idx (s.multitapCommit env).mode).getD [])
      (if inverted then .inverted else .prefixBold)
    exact hpress _

theorem keys_changed (h : Alike r s t) : Alike r (s.keysChanged env) (t.keysChanged env) :=
  (h.run_search env hr).notify_changed env

omit hr in
theorem discard_keys (h : Alike r s t) : Alike r s.discardKeys t.discardKeys :=
  h.map (fun s => s.discardKeys) (fun _ _ => rfl) (fun _ => rfl)

theorem smart_space (h : Alike r s t) : Alike r (s.smartSpace env).1 (t.smartSpace env).1 := by
  obtain ⟨k, rfl⟩ := h.same
  refine branch_reply Iff.rfl (fun _ => (h.emit_commit env _ _).notify_changed env) (fun _ => ?_)
  refine branch_reply Iff.rfl (fun _ => ?_) (fun hzh => ?_)
  · exact branch_reply Iff.rfl (fun _ => (h.map (fun s => s.keyAppend 0x20 kHintAny) (fun _ _ => rfl)
      (fun _ => rfl)).keys_changed env hr) (fun _ => h)
  · have hended := branch (p := s.hasCandidates = true) Iff.rfl
      (fun _ => h.commit_selected_candidate env hr (fun hm => absurd hm hzh))
      (fun _ => branch (p := 0 < s.keySeqLen) Iff.rfl (fun _ => h.discard_keys) (fun _ => h))
    exact (hended.emit_commit env .literal [space]).notify_changed env

omit hr in
theorem smart_tab (h : Alike r s t) : Alike r (s.smartTab env).1 (t.smartTab env).1 := by
  obtain ⟨k, rfl⟩ := h.same
  refine branch_reply Iff.rfl (fun _ => ?_) (fun _ => h)
  exact (h.map (fun s => { s with selected :=
    if s.candidates.length ≤ (s.page+1)*kPageSize then 0 else (s.page+1)*kPageSize })
    (fun _ _ => rfl) (fun _ => rfl)).notify_changed env

theorem smart_digit (kc : Keycode) (e : KeyEntry) (hen : s.mode = .smartEn) (h : Alike r s t) :
    Alike r (s.smartDigit env kc e n).1 (t.smartDigit env kc e n').1 := by
  obtain ⟨k, rfl⟩ := h.same
  have hzh : s.mode ≠ .smartZh := by simp [hen]
  exact (branch (p := 0 < s.keySeqLen) Iff.rfl
    (fun _ => branch (p := s.hasCandidates = true) Iff.rfl
      (fun _ => h.commit_selected_candidate env hr (fun hm => absurd hm hzh))
      (fun _ => h.discard_keys))
    (fun _ => h)).multitap_press env hr kc e.digitSlots.length true

theorem smart_short_tap (slot : ℕ) (h : Alike r s t) :
    Alike r (s.smartShortTap env slot).1 (t.smartShortTap env slot).1 := by
  obtain ⟨k, rfl⟩ := h.same
  refine branch_reply Iff.rfl (fun _ => ?_) (fun _ => h)
  have hcycle : CyclesAlike r { s.lpCycle with byteIndex := none }
      { k.lpCycle with byteIndex := none } := .inl ⟨hr.ended _ rfl, hr.ended _ rfl⟩
  exact ((h.map (fun s => s.keyAppend (slotByte slot) kHintAny) (fun _ _ => rfl)
    (fun _ => rfl)).with_cycle hcycle).keys_changed env hr

theorem append_long (slot : ℕ) (h : Alike r s t) :
    Alike r (ImeLogic.smartLongPress.appendLong env s slot n).1
      (ImeLogic.smartLongPress.appendLong env t slot n').1 := by
  obtain ⟨k, rfl⟩ := h.same
  refine branch_reply Iff.rfl (fun _ => ?_) (fun _ => h)
  have hcycle : CyclesAlike r ⟨some s.keySeqLen, some slot, 0, n⟩
      ⟨some s.keySeqLen, some slot, 0, n'⟩ := .inr ⟨rfl, hr.now⟩
  exact ((h.map (fun s => s.keyAppend (slotByte slot) 0) (fun _ _ => rfl)
    (fun _ => rfl)).with_cycle hcycle).keys_changed env hr

theorem smart_long_press (slot : ℕ) (e : KeyEntry) (h : Alike r s t) :
    Alike r (s.smartLongPress env slot e n).1 (t.smartLongPress env slot e n').1 := by
  have happend := h.append_long env hr slot
  rcases h.cycle with ⟨hs, ht⟩ | ⟨hsame, htime⟩
  · rw [long_press_late env s slot e n (fun hb hc => (hr.late _ hs hb).1 hc.2),
      long_press_late env t slot e n' (fun hb hc => (hr.late _ ht hb).2 hc.2)]
    exact happend
  · have helapsed := hr.elapsed _ _ htime
    have hindex : t.lpCycle.byteIndex = s.lpCycle.byteIndex := by rw [hsame]
    have hslot : t.lpCycle.slot = s.lpCycle.slot := by rw [hsame]
    have hphoneme : t.lpCycle.phonemeIdx = s.lpCycle.phonemeIdx := by rw [hsame]
    by_cases hc : s.lpCycle.byteIndex ≠ none ∧ s.lpCycle.slot = some slot ∧
        n-s.lpCycle.lastMs < kMultiTapTimeoutMs
    · obtain ⟨hne, hs, hlate⟩ := hc
      obtain ⟨i, hi⟩ := Option.ne_none_iff_exists'.mp hne
      have hcycle (idx : ℕ) : CyclesAlike r ⟨some i, some slot, idx, n⟩
          ⟨some i, some slot, idx, n'⟩ := .inr ⟨rfl, hr.now⟩
      rw [long_press_due env s slot i e n hi hs hlate _ rfl,
        long_press_due env t slot i e n' (hindex.trans hi) (hslot.trans hs) (helapsed ▸ hlate) _
          (by rw [hphoneme])]
      exact ((h.map (fun s => { s with phonemeHint := store s.phonemeHint i _ }) (fun _ _ => rfl)
        (fun _ => rfl)).with_cycle (hcycle _)).keys_changed env hr
    · rw [long_press_late env s slot e n (fun hb hl => hc ⟨hb, hl⟩),
        long_press_late env t slot e n' (by rw [hindex, hslot, helapsed]; exact fun hb hl => hc ⟨hb, hl⟩)]
      exact happend

theorem handle_smart (ev : KeyEvent) (h : Alike r s t) :
    Alike r (s.handleSmart env (ev.stamped n)).1 (t.handleSmart env (ev.stamped n')).1 := by
  refine branch_reply Iff.rfl (fun _ => h.smart_space env hr) (fun _ => ?_)
  refine branch_reply Iff.rfl (fun _ => h.smart_tab env) (fun _ => ?_)
  dsimp only [KeyEvent.stamped]
  cases keycodeToInputSlot ev.keycode with
  | none => exact h
  | some slot =>
    dsimp only
    cases kKeyTable[slot]? with
    | none => exact h
    | some e =>
      dsimp only
      refine branch_reply (and_congr (h.mode_iff _) Iff.rfl)
        (fun hc => h.smart_digit env hr ev.keycode e hc.1) (fun _ => ?_)
      exact branch_reply (and_congr (h.mode_iff _) Iff.rfl) (fun _ => h.smart_long_press env hr slot e)
        (fun _ => h.smart_short_tap env hr slot)

theorem handle_direct (ev : KeyEvent) (h : Alike r s t) :
    Alike r (s.handleDirect env (ev.stamped n)).1 (t.handleDirect env (ev.stamped n')).1 := by
  refine branch_reply Iff.rfl
    (fun _ => ((h.multitap_commit env).emit_commit env _ _).notify_changed env) (fun _ => ?_)
  refine branch_reply Iff.rfl
    (fun _ => ((h.multitap_commit env).emit_commit env _ _).notify_changed env) (fun _ => ?_)
  dsimp only [KeyEvent.stamped]
  cases findKeyEntry ev.keycode with
  | none => exact h
  | some e => exact branch_reply Iff.rfl (fun _ => h) (fun _ => h.multitap_press env hr _ _ _)

omit hr in
theorem with_sym1 (down longFired : Bool) {a b : UInt32} (ht : down = true → r.times a b)
    (h : Alike r s t) :
    Alike r { s with sym1 := ⟨down, longFired, a⟩ } { t with sym1 := ⟨down, longFired, b⟩ } := by
  obtain ⟨k, rfl⟩ := h.same
  exact ⟨⟨{ k with sym1Ms := b }, rfl⟩, h.commits, h.multitap, ht, h.cycle, h.lru⟩

theorem handle_sym1 (pressed : Bool) (h : Alike r s t) :
    Alike r (s.handleSym1 env pressed n).1 (t.handleSym1 env pressed n').1 := by
  obtain ⟨k, rfl⟩ := h.same
  have hup (longFired : Bool) := h.with_sym1 false longFired
    (a := s.sym1.pressedAtMs) (b := k.sym1Ms) Bool.noConfusion
  refine branch_reply Iff.rfl (fun _ => ?_) (fun _ => ?_)
  · exact branch_reply Iff.rfl (fun _ => h) (fun _ => h.with_sym1 true false (fun _ => hr.now))
  · refine branch_reply Iff.rfl (fun _ => h) (fun _ => ?_)
    refine branch_reply Iff.rfl (fun _ => hup false) (fun _ => ?_)
    refine branch_reply Iff.rfl (fun _ => ?_) (fun _ => ?_)
    · exact ((hup s.sym1.longFired).map (fun s => { s with
        symPickerOpen := false
        symPickerSel := 0 }) (fun _ _ => rfl) (fun _ => rfl)).notify_changed env
    · exact (((hup s.sym1.longFired).multitap_commit env).emit_commit env .literal _).notify_changed
        env

theorem handle_sym2 (h : Alike r s t) : Alike r (s.handleSym2 env n).1 (t.handleSym2 env n').1 := by
  by_cases hk : s.multitap.keycode = mokyaKeySym2
  · obtain ⟨k, rfl⟩ := h.same
    have hk' : (s.withClocks k).multitap.keycode = mokyaKeySym2 := hk
    have hpress (idx : ℕ) := (h.with_multitap s.multitap.keycode idx s.multitap.slotCount
      s.multitap.inverted hr.now).labelled env ((kSym2Cycle s.mode).getD idx []) .inverted
    rw [ImeLogic.handleSym2, ImeLogic.handleSym2, if_pos hk, if_pos hk', if_pos hk, if_pos hk']
    exact hpress _
  · have hcommit := h.multitap_commit env
    have hk' : ¬ t.multitap.keycode = mokyaKeySym2 := by
      obtain ⟨k, rfl⟩ := h.same
      exact hk
    have hmode := (h.mode_iff s.mode).mp rfl
    rw [ImeLogic.handleSym2, ImeLogic.handleSym2, if_neg hk, if_neg hk', hmode]
    obtain ⟨k, hsame⟩ := hcommit.same
    rw [hsame] at hcommit ⊢
    by_cases hk : (s.multitapCommit env).multitap.keycode = mokyaKeySym2
    · have hk' : ((s.multitapCommit env).withClocks k).multitap.keycode = mokyaKeySym2 := hk
      have hpress (idx : ℕ) := (hcommit.with_multitap (s.multitapCommit env).multitap.keycode idx
        (s.multitapCommit env).multitap.slotCount (s.multitapCommit env).multitap.inverted
        hr.now).labelled env ((kSym2Cycle (s.multitapCommit env).mode).getD idx []) .inverted
      rw [if_pos hk, if_pos hk']
      exact hpress _
    · have hk' : ¬ ((s.multitapCommit env).withClocks k).multitap.keycode = mokyaKeySym2 := hk
      have hpress := (hcommit.with_multitap mokyaKeySym2 0 (kSym2Cycle s.mode).length true
        hr.now).labelled env ((kSym2Cycle (s.multitapCommit env).mode).getD 0 []) .inverted
      rw [if_neg hk, if_neg hk']
      exact hpress

theorem cycle_mode (h : Alike r s t)
    (hl : s.hasCandidates = true → ¬ s.multitapPending → LearnAlike r s t) :
    Alike r (s.cycleMode env) (t.cycleMode env) := by
  have hclear : ∀ {s t : ImeLogic}, Alike r s t → Alike r
      ({ s.compositionClear with mode := ImeLogic.nextMode s.mode }.notifyChanged env)
      ({ t.compositionClear with mode := ImeLogic.nextMode t.mode }.notifyChanged env) := by
    intro s t h
    exact ((h.map (fun s => { s.keysClear with
      phonemeHint := zeroed
      display := []
      pendingStyle := .none
      matchedPrefixBytes := 0
      matchedPrefixKeys := 0
      candidates := []
      selected := 0
      mode := ImeLogic.nextMode s.mode }) (fun _ _ => rfl) (fun _ => rfl)).uncycled
        hr).notify_changed env
  obtain ⟨k, rfl⟩ := h.same
  exact hclear (branch (p := s.multitapPending) Iff.rfl (fun _ => h.multitap_commit env)
    (fun hp => branch (p := s.hasCandidates = true) Iff.rfl
      (fun hc => h.commit_selected_candidate env hr (hl hc hp)) (fun _ => h)))

omit hr in
theorem handle_dpad (dir : NavDir) (h : Alike r s t) :
    Alike r (s.handleDpad env dir).1 (t.handleDpad env dir).1 := by
  obtain ⟨k, rfl⟩ := h.same
  refine branch_reply Iff.rfl (fun _ => ?_) (fun _ => h.log env _)
  cases dir with
  | left => exact (h.map (fun s => { s with selected :=
      (s.selected+s.candidates.length-1) % s.candidates.length }) (fun _ _ => rfl)
      (fun _ => rfl)).notify_changed env
  | right => exact (h.map (fun s => { s with selected := (s.selected+1) % s.candidates.length })
      (fun _ _ => rfl) (fun _ => rfl)).notify_changed env
  | up => exact h
  | down => exact h

theorem cycle_dropped {p q : Prop} [Decidable p] [Decidable q] {a b : LpCycleState}
    (hc : CyclesAlike r a b)
    (hpq : b = { a with lastMs := b.lastMs } → r.times a.lastMs b.lastMs → (p ↔ q)) :
    CyclesAlike r (if p then { a with byteIndex := none } else a)
      (if q then { b with byteIndex := none } else b) := by
  have hended : ∀ (p : Prop) [Decidable p] (a : LpCycleState), r.past a →
      r.past (if p then { a with byteIndex := none } else a) := by
    intro p _ a ha
    split
    · exact hr.ended _ rfl
    · exact ha
  rcases hc with ⟨ha, hb⟩ | ⟨hsame, htime⟩
  · exact .inl ⟨hended p a ha, hended q b hb⟩
  · have hiff := hpq hsame htime
    by_cases h : p
    · rw [if_pos h, if_pos (hiff.mp h)]
      exact .inl ⟨hr.ended _ rfl, hr.ended _ rfl⟩
    · rw [if_neg h, if_neg (fun hq => h (hiff.mpr hq))]
      exact .inr ⟨hsame, htime⟩

theorem key_remove (h : Alike r s t) : Alike r s.keyRemove t.keyRemove := by
  obtain ⟨k, rfl⟩ := h.same
  have hkeys := h.map (fun s => { s with
    keySeq := store s.keySeq (s.keySeqLen-1) 0
    keySeqLen := s.keySeqLen-1 }) (fun _ _ => rfl) (fun _ => rfl)
  refine hkeys.with_cycle (cycle_dropped hr h.cycle (fun hsame _ => ?_))
  have hindex : k.lpCycle.byteIndex = s.lpCycle.byteIndex := congrArg (·.byteIndex) hsame
  show _ ↔ k.lpCycle.byteIndex.any (fun i => decide (s.keySeqLen-1 ≤ i)) = true
  rw [hindex]

theorem handle_del (h : Alike r s t) : Alike r (s.handleDel env).1 (t.handleDel env).1 := by
  obtain ⟨k, rfl⟩ := h.same
  refine branch_reply Iff.rfl (fun _ => h.multitap_clear.notify_changed env) (fun _ => ?_)
  exact branch_reply Iff.rfl (fun _ => (h.key_remove hr).keys_changed env hr) (fun _ => h.log env _)

theorem handle_ok (h : Alike r s t)
    (hl : s.hasCandidates = true → LearnAlike r s t) :
    Alike r (s.handleOk env).1 (t.handleOk env).1 := by
  obtain ⟨k, rfl⟩ := h.same
  refine branch_reply Iff.rfl
    (fun hc => (h.commit_selected_candidate env hr (hl hc)).notify_changed env) (fun _ => ?_)
  exact branch_reply Iff.rfl (fun _ => (h.multitap_commit env).notify_changed env)
    (fun _ => (h.emit_commit env _ _).notify_changed env)

omit hr in
theorem handle_picker (kc : Keycode) (h : Alike r s t) :
    Alike r (s.handlePicker env kc).1 (t.handlePicker env kc).1 := by
  obtain ⟨k, rfl⟩ := h.same
  have hclosed := h.map (fun s => { s with symPickerOpen := false, symPickerSel := 0 })
    (fun _ _ => rfl) (fun _ => rfl)
  rw [ImeLogic.handlePicker, ImeLogic.handlePicker]
  cases ImeLogic.navDir kc with
  | some dir => exact (h.map (fun s => { s with
      symPickerSel := ImeLogic.pickerMove s.symPickerSel dir }) (fun _ _ => rfl)
      (fun _ => rfl)).notify_changed env
  | none =>
    refine branch_reply Iff.rfl (fun _ => ?_) (fun _ => hclosed.notify_changed env)
    exact (hclosed.emit_commit env (.picker s.symPickerSel)
      (kSymPickerCell.getD s.symPickerSel [])).notify_changed env

theorem handle_input (ev : KeyEvent) (h : Alike r s t) :
    Alike r (s.handleInput env (ev.stamped n)).1 (t.handleInput env (ev.stamped n')).1 := by
  have hcommit : Alike r
      (if s.multitapPending ∧ s.multitap.keycode ≠ (ev.stamped n).keycode then s.multitapCommit env
        else s)
      (if t.multitapPending ∧ t.multitap.keycode ≠ (ev.stamped n').keycode then t.multitapCommit env
        else t) := by
    obtain ⟨k, rfl⟩ := h.same
    exact branch Iff.rfl (fun _ => h.multitap_commit env) (fun _ => h)
  rw [ImeLogic.handleInput, ImeLogic.handleInput]
  revert hcommit
  generalize (if s.multitapPending ∧ s.multitap.keycode ≠ (ev.stamped n).keycode then
    s.multitapCommit env else s) = u
  generalize (if t.multitapPending ∧ t.multitap.keycode ≠ (ev.stamped n').keycode then
    t.multitapCommit env else t) = v
  intro hcommit
  have hm := (hcommit.mode_iff u.mode).mp rfl
  rw [hm]
  cases u.mode with
  | smartZh => exact hcommit.handle_smart env hr ev
  | smartEn => exact hcommit.handle_smart env hr ev
  | direct => exact hcommit.handle_direct env hr ev

theorem dispatch_key (ev : KeyEvent) (h : Alike r s t)
    (hl : CommitsCandidate s (.processKey ev) → LearnAlike r s t) :
    Alike r (s.dispatchKey env (ev.stamped n)).1 (t.dispatchKey env (ev.stamped n')).1 := by
  obtain ⟨k, rfl⟩ := h.same
  refine branch_reply Iff.rfl (fun _ => h) (fun hkey => ?_)
  refine branch_reply Iff.rfl (fun _ => h.handle_sym1 env hr ev.pressed) (fun hsym1 => ?_)
  refine branch_reply Iff.rfl (fun _ => h) (fun hpressed => ?_)
  refine branch_reply Iff.rfl (fun _ => h.handle_picker env ev.keycode) (fun hopen => ?_)
  have hrouted : Routed s ev := ⟨hkey, hsym1, not_not.mp hpressed, Bool.eq_false_iff.mpr hopen⟩
  refine branch_reply Iff.rfl (fun hm => ?_) (fun _ => ?_)
  · exact h.cycle_mode env hr (fun hc hp => hl ⟨hrouted, hc, .inl ⟨hm, hp⟩⟩)
  refine branch_reply Iff.rfl (fun _ => h.handle_del env hr) (fun _ => ?_)
  dsimp only [KeyEvent.stamped]
  cases ImeLogic.navDir ev.keycode with
  | some dir => exact h.handle_dpad env dir
  | none =>
    refine branch_reply Iff.rfl (fun hok => ?_) (fun _ => ?_)
    · exact h.handle_ok env hr (fun hc => hl ⟨hrouted, hc, .inr (.inl hok)⟩)
    · exact branch_reply Iff.rfl (fun _ => h.handle_sym2 env hr) (fun _ => h.handle_input env hr ev)

omit hr in
theorem stamp_now (h : Alike r s t) : Alike r (s.stampNow n) (t.stampNow n') := by
  obtain ⟨k, rfl⟩ := h.same
  exact ⟨⟨{ k with nowMs := n' }, rfl⟩, h.commits, h.multitap, h.sym1, h.cycle, h.lru⟩

/-- A key keeps the states alike, unless it commits a candidate that the caches learn
differently. -/
theorem process_key (ev : KeyEvent) (h : Alike r s t)
    (hl : CommitsCandidate s (.processKey ev) →
      LearnAlike r (s.stampNow n) (t.stampNow n')) :
    Alike r (s.processKey env (ev.stamped n)).1 (t.processKey env (ev.stamped n')).1 :=
  h.stamp_now.dispatch_key env hr ev hl

theorem expire_multitap (h : Alike r s t) :
    Alike r (s.expireMultitap env n).1 (t.expireMultitap env n').1 ∧
      (t.expireMultitap env n').2 = (s.expireMultitap env n).2 := by
  obtain ⟨k, rfl⟩ := h.same
  rw [ImeLogic.expireMultitap, ImeLogic.expireMultitap]
  by_cases hp : s.multitapPending
  · have helapsed := hr.elapsed _ _ (h.multitap hp)
    rw [helapsed]
    by_cases he : kMultiTapTimeoutMs ≤ n-s.multitap.lastMs
    · have hp' : (s.withClocks k).multitapPending := hp
      rw [if_pos ⟨hp, he⟩, if_pos ⟨hp', he⟩]
      exact ⟨h.multitap_commit env, rfl⟩
    · rw [if_neg (fun hc => he hc.2), if_neg (fun hc => he hc.2)]
      exact ⟨h, rfl⟩
  · have hp' : ¬ (s.withClocks k).multitapPending := hp
    rw [if_neg (fun hc => hp hc.1), if_neg (fun hc => hp' hc.1)]
    exact ⟨h, rfl⟩

theorem open_picker (h : Alike r s t) :
    Alike r (s.openPicker n).1 (t.openPicker n').1 ∧
      (t.openPicker n').2 = (s.openPicker n).2 := by
  obtain ⟨k, rfl⟩ := h.same
  rw [ImeLogic.openPicker, ImeLogic.openPicker]
  by_cases hd : s.sym1.down = true
  · have helapsed := hr.elapsed _ _ (h.sym1 hd)
    rw [helapsed]
    by_cases he : ¬ s.sym1.longFired = true ∧ kLongPressMs ≤ n-s.sym1.pressedAtMs
    · have he' : (s.withClocks k).sym1.down = true ∧ ¬ (s.withClocks k).sym1.longFired = true ∧
          kLongPressMs ≤ n-s.sym1.pressedAtMs := ⟨hd, he⟩
      rw [if_pos ⟨hd, he⟩, if_pos he']
      exact ⟨(h.with_sym1 s.sym1.down true h.sym1).map (fun s => { s with
        symPickerOpen := true
        symPickerSel := 0 }) (fun _ _ => rfl) (fun _ => rfl), rfl⟩
    · have he' : ¬ ((s.withClocks k).sym1.down = true ∧ ¬ (s.withClocks k).sym1.longFired = true ∧
          kLongPressMs ≤ n-s.sym1.pressedAtMs) := fun hc => he hc.2
      rw [if_neg (fun hc => he hc.2), if_neg he']
      exact ⟨h, rfl⟩
  · have hd' : ¬ (s.withClocks k).sym1.down = true := hd
    rw [if_neg (fun hc => hd hc.1), if_neg (fun hc => hd' hc.1)]
    exact ⟨h, rfl⟩

theorem lock_cycle (h : Alike r s t) : Alike r (s.lockCycle n) (t.lockCycle n') := by
  rw [lock_cycle_eq, lock_cycle_eq]
  apply h.with_cycle
  apply cycle_dropped hr h.cycle
  intro hsame htime
  have hindex : t.lpCycle.byteIndex = s.lpCycle.byteIndex := by rw [hsame]
  rw [hindex, hr.elapsed _ _ htime]

theorem tick (h : Alike r s t) : Alike r (s.tick env n).1 (t.tick env n').1 := by
  have hstamped : Alike r (s.stampNow n) (t.stampNow n') := h.stamp_now
  obtain ⟨hexpired, he⟩ := hstamped.expire_multitap env hr
  obtain ⟨hopened, ho⟩ := hexpired.open_picker hr
  have hlocked := hopened.lock_cycle hr
  rw [tick_eq, tick_eq]
  exact branch_reply (by rw [he, ho]) (fun _ => hlocked.notify_changed env) (fun _ => hlocked)

end Alike

end MokyaLora.Ime
