import MokyaLora.ImeAlike
import MokyaLora.LruShift
import MokyaLora.Lib.Counter

/-!
# Two runs whose clocks differ by a constant
-/

set_option autoImplicit false

namespace MokyaLora.Ime
open Lib.Fields Lib.Memory Lib.Schedule Lib.Counter

def shifted (c : UInt32) : Likeness where
  times a b := b = a+c
  past a := a.byteIndex = none
  caches a b := b = a.shift c ∧ LruCache.Level c a.entries ∧ a.Ok

theorem shifted_sound (c n : UInt32) : Sound (shifted c) n (n+c) where
  now := rfl
  elapsed := by
    rintro a b rfl
    exact add_sub_add n a c
  ended := fun _ h => h
  late := fun _ h hne => absurd h hne
  lookup := by
    rintro a b ⟨rfl, hl, -⟩ keys hints maxResults
    exact LruCache.lookup_shift c a hl keys hints maxResults

/-- What a commit in SmartZh teaches the cache brings about no comparison across the
wrap. -/
def LearnsTogether (c : UInt32) (s : ImeLogic) (nowMs : UInt32) : Prop :=
  s.mode = .smartZh → ∀ d p, s.picked = some (d, p) →
    LruCache.Accepts (s.keys.take p) d.word →
    LruCache.WrapsTogether c s.lru (s.keys.take p) d.word
      (lruPackPhonemeHints (s.hints.take p)) nowMs

def WrapsAlike (c : UInt32) (s : ImeLogic) : Call → Prop
  | .processKey ev => CommitsCandidate s (.processKey ev) → LearnsTogether c s ev.nowMs
  | _ => True

section Step

variable (env : Env) (c : UInt32) {s t : ImeLogic}

theorem learn_shift (n : UInt32) (h : Alike (shifted c) s t)
    (hw : LearnsTogether c s n) :
    LearnAlike (shifted c) (s.stampNow n) (t.stampNow (n+c)) := by
  intro hzh d p hp
  have htake : d.word.take (kCandidateMaxBytes-1) = d.word :=
    List.take_of_length_le (Nat.le_sub_one_of_lt d.fits)
  obtain ⟨hshift, hl, hok⟩ := h.lru
  obtain ⟨k, rfl⟩ := h.same
  rw [htake]
  by_cases hc : s.mode = .smartZh ∧ 0 < p ∧ p ≤ s.keySeqLen
  · have hlearned := hw hzh d p hp
    have hc' : ((s.withClocks k).stampNow (n+c)).mode = .smartZh ∧ 0 < p ∧
      p ≤ ((s.withClocks k).stampNow (n+c)).keySeqLen := hc
    have hc : (s.stampNow n).mode = .smartZh ∧ 0 < p ∧ p ≤ (s.stampNow n).keySeqLen := hc
    rw [ImeLogic.learn, ImeLogic.learn, if_pos hc, if_pos hc']
    have hall (tone : UInt8) : (shifted c).caches
        (s.lru.upsert (s.keys.take p) (lruPackPhonemeHints (s.hints.take p)) tone d.word n)
        (k.lru.upsert (s.keys.take p) (lruPackPhonemeHints (s.hints.take p)) tone d.word (n+c)) := by
      have hk : k.lru = s.lru.shift c := hshift
      rw [hk]
      exact ⟨LruCache.upsert_shift c s.lru _ _ _ tone n hlearned,
        LruCache.level_upsert c s.lru _ _ _ tone n hok hl hlearned,
        LruCache.ok_upsert s.lru _ _ _ tone n hok⟩
    exact hall _
  · have hc' : ¬ (((s.withClocks k).stampNow (n+c)).mode = .smartZh ∧ 0 < p ∧
      p ≤ ((s.withClocks k).stampNow (n+c)).keySeqLen) := hc
    have hc : ¬ ((s.stampNow n).mode = .smartZh ∧ 0 < p ∧ p ≤ (s.stampNow n).keySeqLen) := hc
    rw [ImeLogic.learn, ImeLogic.learn, if_neg hc, if_neg hc']
    exact h.lru

theorem apply_shift (call : Timed) (h : Alike (shifted c) s t) (hw : WrapsAlike c s call.call) :
    Alike (shifted c) (s.apply env call.call) (t.apply env (call.later c).call) := by
  cases call with
  | key ev =>
    exact h.process_key env (shifted_sound c ev.nowMs) ev
      (fun hcommit => learn_shift c ev.nowMs h (hw hcommit))
  | tick nowMs => exact h.tick env (shifted_sound c nowMs)

end Step

theorem init_shift (c : UInt32) : Alike (shifted c) .init .init where
  same := ⟨⟨0, 0, .none, .empty, 0, []⟩, rfl⟩
  commits := rfl
  multitap := fun hp => absurd rfl hp
  sym1 := Bool.noConfusion
  cycle := .inl ⟨rfl, rfl⟩
  lru := ⟨rfl, by simp [LruCache.Level, LruCache.empty, ImeLogic.init], LruCache.ok_empty⟩

theorem calls_shift (env : Env) (c : UInt32) (calls : List Timed) (s t : ImeLogic)
    (h : Alike (shifted c) s t)
    (hw : Along (callStep env) (WrapsAlike c) s (calls.map Timed.call)) :
    Alike (shifted c) ((calls.map Timed.call).foldl (fun s a => s.apply env a) s)
      ((calls.map (fun a => (a.later c).call)).foldl (fun s a => s.apply env a) t) := by
  induction calls generalizing s t with
  | nil => exact h
  | cons call calls ih => exact ih _ _ (apply_shift env c call h hw.1) (hw.2 _ rfl)

/-- While no commit brings about a comparison across the wrap of the shifted clock,
the listener gets the same strings to commit and the candidates are the same after
every call. -/
theorem clock_shift (env : Env) (c : UInt32) (calls : List Timed)
    (h : Along (callStep env) (WrapsAlike c) .init (calls.map Timed.call)) (k : ℕ) :
    (ImeLogic.run env ((calls.take k).map (fun a => (a.later c).call))).commits =
      (ImeLogic.run env ((calls.take k).map Timed.call)).commits ∧
    (ImeLogic.run env ((calls.take k).map (fun a => (a.later c).call))).candidates =
      (ImeLogic.run env ((calls.take k).map Timed.call)).candidates := by
  have hsplit : (calls.take k).map Timed.call++(calls.drop k).map Timed.call =
      calls.map Timed.call := by
    rw [← List.map_append, List.take_append_drop]
  rw [← hsplit] at h
  have hfirst := (along_append (callStep env) (WrapsAlike c) _ _ _ _ h (exec_run env _)).1
  have halike := calls_shift env c (calls.take k) _ _ (init_shift c) hfirst
  exact ⟨halike.commits, halike.candidates⟩

def twoWordEnv : Env where
  zhSearcher := (TrieSearcher.loadFromMemory
    ([0x4D, 0x49, 0x45, 0x44]++le16 2++le16 0++le32 1++le32 24++le32 0++le32 0++[1, 0x21])
    (le16 2++le16 100++[1, 3]++utf8 '八'++le16 90++[1, 3]++utf8 '巴')).map TrieSearch.ofDictionary
  enSearcher := none
  compositionSearcher := none
  listener := true

def tap (kc : Keycode) (nowMs : UInt32) : Timed := .key ⟨kc, true, nowMs, 0⟩

/-- 八 is committed, then 巴, and the key typed once more. -/
def bothWords : List Timed :=
  [tap 0x01 0, tap mokyaKeyOk 2, tap 0x01 3, tap mokyaKeyRight 3, tap mokyaKeyOk 4, tap 0x01 5,
    tap mokyaKeyOk 6]

/-- The stored uses and the present lie on one side of the wrap, and the cache has room. -/
def OneSide (c : UInt32) (s : ImeLogic) : Call → Prop
  | .processKey ev => s.lru.entries.length < kLruCap ∧
    ∀ e ∈ s.lru.entries, Wraps c e.lastUsedMs ↔ Wraps c ev.nowMs
  | _ => True

instance (c : UInt32) (s : ImeLogic) : ∀ call : Call, Decidable (OneSide c s call)
  | .processKey ev => inferInstanceAs (Decidable (s.lru.entries.length < kLruCap ∧
      ∀ e ∈ s.lru.entries, Wraps c e.lastUsedMs ↔ Wraps c ev.nowMs))
  | .tick _ => isTrue trivial
  | .abort => isTrue trivial
  | .setSelected _ => isTrue trivial
  | .setTextContext _ => isTrue trivial
  | .loadLru _ => isTrue trivial

theorem wraps_alike_of_one_side (c : UInt32) (s : ImeLogic) (call : Call) (h : OneSide c s call) :
    WrapsAlike c s call := by
  cases call with
  | processKey ev =>
    intro _ _ d p _ _
    constructor
    · intro i hi
      exact absurd hi.2.1 (Nat.ne_of_lt h.1)
    · intro i f hf _ _ _
      exact h.2 f (List.mem_of_getElem? hf)
  | _ => trivial

/-- The shifted clock wraps between the first key and the first commit. -/
theorem both_words_kept :
    (ImeLogic.run twoWordEnv (bothWords.map Timed.call)).commits =
      [utf8 '八', utf8 '巴', utf8 '巴'] ∧
    (ImeLogic.run twoWordEnv
      ((bothWords.take 7).map (fun a => (a.later 0xFFFFFFFF).call))).commits =
        (ImeLogic.run twoWordEnv ((bothWords.take 7).map Timed.call)).commits ∧
    (ImeLogic.run twoWordEnv
      ((bothWords.take 6).map (fun a => (a.later 0xFFFFFFFF).call))).candidates =
        (ImeLogic.run twoWordEnv ((bothWords.take 6).map Timed.call)).candidates := by
  have hside : Along (callStep twoWordEnv) (OneSide 0xFFFFFFFF) .init
      (bothWords.map Timed.call) := by
    decide +kernel
  have halike := along_imp_of_invariant (callStep twoWordEnv) _ (WrapsAlike 0xFFFFFFFF)
    (fun _ => True) (fun _ _ _ _ _ _ => trivial)
    (fun s call _ => wraps_alike_of_one_side 0xFFFFFFFF s call) _ _ trivial hside
  exact ⟨by decide +kernel, (clock_shift twoWordEnv 0xFFFFFFFF bothWords halike 7).1,
    (clock_shift twoWordEnv 0xFFFFFFFF bothWords halike 6).2⟩

/-- With the wrap between the two commits, the older word is found first. -/
theorem wrap_reorders :
    (ImeLogic.run twoWordEnv (bothWords.map Timed.call)).commits =
      [utf8 '八', utf8 '巴', utf8 '巴'] ∧
    (ImeLogic.run twoWordEnv (bothWords.map (fun a => (a.later 0xFFFFFFFD).call))).commits =
      [utf8 '八', utf8 '巴', utf8 '八'] ∧
    (ImeLogic.run twoWordEnv (bothWords.map (fun a => (a.later 0xFFFFFFFD).call))).commits ≠
      (ImeLogic.run twoWordEnv (bothWords.map Timed.call)).commits := by
  refine ⟨?_, ?_, ?_⟩ <;> decide +kernel

end MokyaLora.Ime
