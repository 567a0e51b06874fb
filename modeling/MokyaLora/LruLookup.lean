import MokyaLora.LruRecall

/-!
# What a lookup returns

The entries that match are ranked, the first of each word kept, and as many
returned as there is room for.
-/

set_option autoImplicit false

namespace MokyaLora
open Lib.Fields Lib.Ranked

namespace LruCache

def History.Texts : History → Prop
  | .start => True
  | .reset h => h.Texts
  | .upsert h _ _ _ utf8 _ => h.Texts ∧ (0 : UInt8) ∉ utf8
  | .deserialize h saved _ => h.Texts ∧ saved.Texts

def userHint (hints : Option Bytes) (k : ℕ) : UInt8 :=
  match hints with
  | some h => h.getD k kHintAny
  | none => kHintAny

/-- The documented rule: the keys are those of the entry, or begin with its two or
more, and of the first four hints none disagrees. -/
def Matches (e : LruEntry) (userKeys : Bytes) (hints : Option Bytes) : Prop :=
  (userKeys = e.keys ∨ 2 ≤ e.klen.toNat ∧ e.keys <+: userKeys) ∧
  ∀ k < 4, k < e.klen.toNat → userHint hints k = kHintAny ∨
    lruUnpackPhonemeHint e.posPacked k = kHintAny ∨
    lruUnpackPhonemeHint e.posPacked k = userHint hints k

/-- Used later, or as late and more often, or as late and as often and in front. -/
def Ahead (c : LruCache) (i j : Fin c.entries.length) : Prop :=
  c.entries[j].lastUsedMs < c.entries[i].lastUsedMs ∨
  c.entries[i].lastUsedMs = c.entries[j].lastUsedMs ∧
    (c.entries[j].useCount < c.entries[i].useCount ∨
      c.entries[i].useCount = c.entries[j].useCount ∧ i < j)

section Matching

variable (e : LruEntry) (userKeys : Bytes) (hints : Option Bytes)

theorem keys_match_iff (h : e.Valid) :
    (e.klen ≠ 0 ∧ e.klen.toNat ≤ userKeys.length ∧
      ¬ (e.klen.toNat ≠ userKeys.length ∧ e.klen = 1) ∧ e.keys = userKeys.take e.klen.toNat) ↔
    userKeys = e.keys ∨ 2 ≤ e.klen.toNat ∧ e.keys <+: userKeys := by
  have hlen := e.keys_length h
  have hone : e.klen = 1 ↔ e.klen.toNat = 1 := UInt8.toNat_inj.symm
  have hpos : e.klen ≠ 0 := by
    rintro hz
    have hlow := h.1
    rw [hz] at hlow
    cases hlow
  rw [and_iff_right hpos, hone]
  constructor
  · rintro ⟨hle, hlong, hkeys⟩
    have hprefix : e.keys <+: userKeys := hkeys ▸ List.take_prefix _ _
    by_cases hall : e.klen.toNat = userKeys.length
    · left
      rw [hkeys, hall, List.take_length]
    · right
      have := h.1
      exact ⟨by omega, hprefix⟩
  · rintro (rfl | ⟨htwo, hprefix⟩)
    · rw [hlen]
      exact ⟨le_refl _, fun hc => hc.1 rfl, by rw [← hlen, List.take_length]⟩
    · have hle := hprefix.length_le
      rw [hlen] at hle
      exact ⟨hle, fun hc => by omega, by rw [← hlen]; exact List.prefix_iff_eq_take.mp hprefix⟩

theorem hints_match_iff : (∀ k < e.klen.toNat, hintMatches (lruUnpackPhonemeHint e.posPacked k)
      (userHint hints k) = true) ↔
    ∀ k < 4, k < e.klen.toNat → userHint hints k = kHintAny ∨
      lruUnpackPhonemeHint e.posPacked k = kHintAny ∨
      lruUnpackPhonemeHint e.posPacked k = userHint hints k := by
  have hspread (k : ℕ) : hintMatches (lruUnpackPhonemeHint e.posPacked k) (userHint hints k) =
      true ↔ userHint hints k = kHintAny ∨ lruUnpackPhonemeHint e.posPacked k = kHintAny ∨
        lruUnpackPhonemeHint e.posPacked k = userHint hints k := by
    simp [hintMatches, or_assoc]
  constructor
  · exact fun h k _ hk => (hspread k).mp (h k hk)
  · intro h k hk
    by_cases hfour : k < 4
    · exact (hspread k).mpr (h k hfour hk)
    · have hany : lruUnpackPhonemeHint e.posPacked k = kHintAny := if_pos (not_lt.mp hfour)
      exact (hspread k).mpr (.inr (.inl hany))

theorem matches_iff (h : e.Valid) :
    matchesKeys e userKeys hints = true ↔ Matches e userKeys hints := by
  rw [Matches, ← keys_match_iff e userKeys h, ← hints_match_iff e hints, matchesKeys,
    Bool.and_eq_true, decide_eq_true_eq, List.all_eq_true]
  simp only [List.mem_range]
  exact Iff.rfl

end Matching

section Ranking

variable (c : LruCache) (userKeys : Bytes) (hints : Option Bytes)

theorem ahead_of_staler (i j : Fin c.entries.length)
    (h : staler c.entries[j] c.entries[i] = true) : c.Ahead i j := by
  rw [staler, decide_eq_true_eq] at h
  rcases h with h | ⟨heq, h⟩
  · exact .inl h
  · exact .inr ⟨heq.symm, .inl h⟩

theorem ahead_of_front (i j : Fin c.entries.length)
    (h : staler c.entries[j] c.entries[i] = false) (hlt : j < i) : c.Ahead j i := by
  simp only [staler, decide_eq_false_iff_not, not_or, not_and, UInt32.not_lt, UInt16.not_lt] at h
  rcases UInt32.lt_or_eq_of_le h.1 with hlater | heq
  · exact .inl hlater
  · rcases UInt16.lt_or_eq_of_le (h.2 heq.symm) with hmore | hsame
    · exact .inr ⟨heq.symm, .inl hmore⟩
    · exact .inr ⟨heq.symm, .inr ⟨hsame.symm, hlt⟩⟩

theorem ahead_trans (i j k : Fin c.entries.length) (hij : c.Ahead i j) (hjk : c.Ahead j k) :
    c.Ahead i k := by
  simp only [Ahead, UInt32.lt_iff_toNat_lt, ← UInt32.toNat_inj, UInt16.lt_iff_toNat_lt,
    ← UInt16.toNat_inj] at hij hjk ⊢
  omega

def ranked : List (Fin c.entries.length) :=
  ((List.finRange c.entries.length).filter (fun i => matchesKeys c.entries[i] userKeys hints)).foldl
    (fun l i => shiftIn (fun j => staler c.entries[j] c.entries[i]) l i) []

theorem ranked_entries : (c.ranked userKeys hints).map (fun i => c.entries[i]) =
    sortMatches (c.entries.filter (fun e => matchesKeys e userKeys hints)) := by
  have hall : (List.finRange c.entries.length).map (fun i => c.entries[i]) = c.entries :=
    List.map_getElem_finRange c.entries
  have hsort := shifted_map (fun i j : Fin c.entries.length => staler c.entries[i] c.entries[j])
    staler (fun i => c.entries[i])
    ((List.finRange c.entries.length).filter (fun i => matchesKeys c.entries[i] userKeys hints)) []
    (fun i j _ _ => rfl)
  rw [ranked, ← hsort, sortMatches]
  conv_rhs => rw [← hall, List.filter_map]
  rfl

theorem mem_ranked (i : Fin c.entries.length) :
    i ∈ c.ranked userKeys hints ↔ Matches c.entries[i] userKeys hints := by
  have hiff := matches_iff c.entries[i] userKeys hints (c.valid _ (List.getElem_mem _))
  rw [ranked, mem_shifted, List.mem_filter, hiff]
  simp

theorem ranked_pairwise : (c.ranked userKeys hints).Pairwise c.Ahead := by
  apply sorted_pairwise _ c.Ahead (fun i j => i < j) c.ahead_trans
  · exact fun i j h => ahead_of_staler c i j h
  · exact fun i j h hlt => ahead_of_front c i j h hlt
  · exact List.Pairwise.nil
  · exact (List.pairwise_lt_finRange _).filter _
  · simp

end Ranking

section Words

theorem same_word_eq (o e : LruEntry) (ho : (0 : UInt8) ∉ o.wordBytes)
    (he : (0 : UInt8) ∉ e.wordBytes) : sameWord o e = decide (e.wordBytes = o.wordBytes) := by
  rw [sameWord, cstr_self _ ho, cstr_self _ he]
  apply decide_eq_decide.mpr
  constructor
  · rintro ⟨htake, hend⟩
    have hle : o.wordBytes.length ≤ e.wordBytes.length := by
      by_contra hlt
      have hlt := not_le.mp hlt
      rw [List.getD_eq_getElem?_getD, List.getElem?_eq_getElem hlt, Option.getD_some] at hend
      exact ho (hend ▸ List.getElem_mem hlt)
    rw [← htake, List.take_of_length_le hle]
  · intro h
    rw [h, List.take_length]
    exact ⟨rfl, by simp⟩

theorem upsert_words (c : LruCache) (kbytes utf8 : Bytes) (posPacked tone : UInt8)
    (nowMs : UInt32) (h : ∀ e ∈ c.entries, (0 : UInt8) ∉ e.wordBytes) (hu : (0 : UInt8) ∉ utf8) :
    ∀ e ∈ (c.upsert kbytes posPacked tone utf8 nowMs).entries, (0 : UInt8) ∉ e.wordBytes := by
  by_cases ha : Accepts kbytes utf8
  · obtain ⟨f, hf, htriple, -, -, hothers⟩ :=
      upsert_slot c kbytes utf8 posPacked tone nowMs ha
    intro e he
    obtain ⟨j, hj⟩ := List.mem_iff_getElem?.mp he
    by_cases hslot : j = c.upsertSlot kbytes utf8 posPacked
    · rw [hslot, hf, Option.some.injEq] at hj
      have hword : e.wordBytes = utf8 := hj ▸ congrArg (fun t => t.2.2) htriple
      exact hword.symm ▸ hu
    · rw [hothers j hslot] at hj
      exact h e (List.mem_of_getElem? hj)
  · rw [upsert_rejected c kbytes utf8 posPacked tone nowMs ha]
    exact h

theorem history_words (h : History) (ht : h.Texts) :
    ∀ e ∈ h.cache.entries, (0 : UInt8) ∉ e.wordBytes := by
  induction h with
  | start => simp [History.cache, empty]
  | reset h ih => simp [History.cache, reset, empty]
  | upsert h kbytes posPacked tone utf8 nowMs ih =>
    exact upsert_words h.cache kbytes utf8 posPacked tone nowMs (ih ht.1) ht.2
  | deserialize h saved trailing ih ihsaved =>
    rw [History.cache, deserialize_image]
    exact ihsaved ht.2

end Words

def hitOf (hit : Candidate × ℕ) : Bytes × ℕ × ℕ × ℕ :=
  (hit.1.word, hit.1.freq, hit.1.tone, hit.2)

/-- The hit of an entry: its word, the highest frequency, its tone, and the number of
its keys. -/
def entryHit (e : LruEntry) : Bytes × ℕ × ℕ × ℕ :=
  (e.wordBytes, 65535, e.tone.toNat, e.klen.toNat)

/-- In every cache that comes about from C strings, a lookup ranks the matching
entries by last use, then number of uses, then place, keeps the first of each word
and returns as many as there is room for; no hit consumes more keys than there
are. -/
theorem lookup_ranked (h : History) (ht : h.Texts) (userKeys : Bytes) (hints : Option Bytes)
    (maxResults : ℕ) :
    ∃ ranked : List (Fin h.cache.entries.length),
      (∀ i, i ∈ ranked ↔ Matches h.cache.entries[i] userKeys hints) ∧
      ranked.Pairwise h.cache.Ahead ∧
      (h.cache.lookup userKeys hints maxResults).map hitOf =
        (((ranked.map (fun i => h.cache.entries[i])).eraseDupsBy
          (fun e f => decide (e.wordBytes = f.wordBytes))).take maxResults).map entryHit ∧
      ∀ hit ∈ h.cache.lookup userKeys hints maxResults, hit.2 ≤ userKeys.length := by
  refine ⟨h.cache.ranked userKeys hints, mem_ranked _ _ _, ranked_pairwise _ _ _, ?_,
    fun hit hhit => ((lookup_spec _ _ _ _).2 hit hhit).2⟩
  have hwords := history_words h ht
  have hsorted := ranked_entries h.cache userKeys hints
  generalize hms : (h.cache.ranked userKeys hints).map (fun i => h.cache.entries[i]) = ms
    at hsorted ⊢
  have hmem : ∀ e ∈ ms, e ∈ h.cache.entries := by
    intro e he
    rw [hsorted, sort_matches_mem] at he
    exact List.mem_of_mem_filter he
  have hdedup : dedupMatches maxResults ms =
      (ms.eraseDupsBy (fun e f => decide (e.wordBytes = f.wordBytes))).take maxResults := by
    have hcongr := fold_keepNew_congr sameWord maxResults
      (fun o e => decide (e.wordBytes = o.wordBytes)) ms []
      (fun o ho e he => same_word_eq o e (hwords o (hmem o ho)) (hwords e (hmem e he)))
    have hfold := fold_keepNew (fun o e => decide (e.wordBytes = o.wordBytes)) maxResults ms []
      (Nat.zero_le _)
    simp at hfold
    exact hcongr.trans hfold
  rw [lookup, ← hsorted, hdedup, List.map_map]
  apply List.map_congr_left
  intro e he
  rw [← hdedup] at he
  have hword := hwords e (hmem e ((dedup_matches_spec maxResults ms).2 he))
  simp [hitOf, entryHit, emit, Candidate.ofBytes, cstr_self _ hword]

/-- 八 is learned for two keys, then with a tone key behind them, and 巴 for the first
key. -/
def learnedWords : History :=
  .upsert (.upsert (.upsert .start [0x21, 0x2A] 0xFF 1 [0xE5, 0x85, 0xAB] 10)
    [0x21, 0x2A, 0x20] 0xFF 1 [0xE5, 0x85, 0xAB] 20) [0x21] 0xFF 1 [0xE5, 0xB7, 0xB4] 30

theorem learned_words_ranked :
    (learnedWords.cache.lookup [0x21, 0x2A, 0x20] none 5).map hitOf =
      [([0xE5, 0x85, 0xAB], 65535, 1, 3)] ∧
    ∃ ranked : List (Fin learnedWords.cache.entries.length),
      (∀ i, i ∈ ranked ↔ Matches learnedWords.cache.entries[i] [0x21, 0x2A, 0x20] none) ∧
      ranked.Pairwise learnedWords.cache.Ahead ∧
      (learnedWords.cache.lookup [0x21, 0x2A, 0x20] none 5).map hitOf =
        (((ranked.map (fun i => learnedWords.cache.entries[i])).eraseDupsBy
          (fun e f => decide (e.wordBytes = f.wordBytes))).take 5).map entryHit ∧
      ∀ hit ∈ learnedWords.cache.lookup [0x21, 0x2A, 0x20] none 5, hit.2 ≤ 3 :=
  ⟨by decide +kernel,
    lookup_ranked learnedWords (by simp only [learnedWords, History.Texts]; decide) _ _ _⟩

end LruCache

end MokyaLora
