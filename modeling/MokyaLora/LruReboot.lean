import MokyaLora.LruRecall
import MokyaLora.KeyTable
import MokyaLora.Lib.Schedule

/-!
# The cache after a reboot

The times in the cache are those of the clock at the uses, and the clock starts
again at every boot. A session starts with the cache as it was saved; then the
commits come at times that do not decrease.
-/

set_option autoImplicit false

namespace MokyaLora
open Lib.Fields Lib.Schedule

structure Commit where
  kbytes : Bytes
  posPacked : UInt8
  tone : UInt8
  utf8 : Bytes
  nowMs : UInt32

def Commit.triple (u : Commit) : Bytes × UInt8 × Bytes := (u.kbytes, u.posPacked, u.utf8)

/-- The cache, the triples used since the boot, and the time of the last use. -/
structure Session where
  cache : LruCache
  used : List (Bytes × UInt8 × Bytes)
  clockMs : UInt32

namespace Session

def boot (saved : LruCache.History) (trailing : Bytes) : Session :=
  ⟨(LruCache.empty.deserialize (saved.cache.image++trailing)).1, [], 0⟩

def commit (s : Session) (u : Commit) : Session :=
  ⟨s.cache.upsert u.kbytes u.posPacked u.tone u.utf8 u.nowMs, u.triple::s.used, u.nowMs⟩

def step (s : Session) (u : Commit) : Option Session :=
  if s.clockMs ≤ u.nowMs then some (s.commit u) else none

/-- What the keys find and was used in the very millisecond of the commit does not outrank
it. -/
def Tied (s : Session) (u : Commit) : Prop :=
  ∀ j f, j ≠ s.cache.upsertSlot u.kbytes u.utf8 u.posPacked →
    s.cache.entries[j]? = some f → LruCache.matchesKeys f u.kbytes none = true →
    f.lastUsedMs = u.nowMs →
    f.useCount < s.cache.usesAfter u.kbytes u.utf8 u.posPacked ∨
      f.useCount = s.cache.usesAfter u.kbytes u.utf8 u.posPacked ∧
        s.cache.upsertSlot u.kbytes u.utf8 u.posPacked < j

/-- What the keys find, was loaded and not used since has no later time than the commit. In a
full cache a new triple finds every triple used since the boot used later than all that were
loaded, not used since and used no more often. -/
structure OnTime (s : Session) (u : Commit) : Prop where
  loaded : ∀ j f, j ≠ s.cache.upsertSlot u.kbytes u.utf8 u.posPacked →
    s.cache.entries[j]? = some f → LruCache.matchesKeys f u.kbytes none = true →
    f.triple ∉ s.used → f.lastUsedMs ≤ u.nowMs
  tied : Tied s u
  full : s.cache.entries.length = kLruCap → u.triple ∉ s.cache.entries.map LruEntry.triple →
    ∀ g ∈ s.cache.entries, g.triple ∈ s.used → ∀ f ∈ s.cache.entries, f.triple ∉ s.used →
      f.useCount ≤ g.useCount → f.lastUsedMs < g.lastUsedMs

structure Later (s : Session) (u : Commit) : Prop where
  loaded : ∀ e ∈ s.cache.entries, e.triple ∉ s.used → e.lastUsedMs < u.nowMs
  tied : Tied s u

structure Clocked (s : Session) : Prop where
  ok : s.cache.Ok
  clock : ∀ g ∈ s.cache.entries, g.triple ∈ s.used → g.lastUsedMs ≤ s.clockMs

structure Sorted (s : Session) : Prop extends Clocked s where
  newer : ∀ g ∈ s.cache.entries, g.triple ∈ s.used → ∀ f ∈ s.cache.entries, f.triple ∉ s.used →
    f.lastUsedMs < g.lastUsedMs

end Session

namespace LruCache

section Frame

variable (c : LruCache) (kbytes utf8 : Bytes) (posPacked tone : UInt8) (nowMs : UInt32)

theorem entry_accepts (e : LruEntry) (h : e.Valid) : Accepts e.keys e.wordBytes := by
  have hw : e.wordBytes.length = e.utf8Len.toNat := by
    rw [LruEntry.wordBytes, List.length_take, Vector.length_toList]
    exact Nat.min_eq_left h.2.2.2
  rw [Accepts, e.keys_length h, hw]
  exact ⟨⟨h.1, h.2.1⟩, h.2.2⟩

/-- After an upsert an entry is used now and of its triple, or was there before in the
same slot with another triple. -/
theorem upsert_entries (h : c.Ok) (i : ℕ) (e : LruEntry)
    (he : (c.upsert kbytes posPacked tone utf8 nowMs).entries[i]? = some e) :
    e.triple = (kbytes, posPacked, utf8) ∧ e.lastUsedMs = nowMs ∨
    e.triple ≠ (kbytes, posPacked, utf8) ∧ c.entries[i]? = some e := by
  by_cases ha : Accepts kbytes utf8
  · obtain ⟨n, hn, htriple, htime, -, hframe⟩ :=
      upsert_slot c kbytes utf8 posPacked tone nowMs ha
    have hok := ok_upsert c kbytes utf8 posPacked tone nowMs h
    by_cases hi : i = c.upsertSlot kbytes utf8 posPacked
    · rw [← hi, he, Option.some.injEq] at hn
      exact .inl (hn ▸ ⟨htriple, htime⟩)
    · refine .inr ⟨?_, (hframe i hi).symm.trans he⟩
      intro hsame
      obtain ⟨hlt, -⟩ := List.getElem?_eq_some_iff.mp he
      apply hi
      apply (List.getElem?_inj (by rwa [List.length_map]) hok.distinct).mp
      rw [List.getElem?_map, List.getElem?_map, he, hn, Option.map_some, Option.map_some, hsame,
        htriple]
  · rw [upsert_rejected c kbytes utf8 posPacked tone nowMs ha] at he
    refine .inr ⟨?_, he⟩
    intro hsame
    have hacc := entry_accepts e (c.valid e (List.mem_of_getElem? he))
    simp only [LruEntry.triple, Prod.mk.injEq] at hsame
    rw [hsame.1, hsame.2.2] at hacc
    exact ha hacc

theorem evicted_score (g : LruEntry) (hg : g ∈ c.entries)
    (hout : g.triple ∉ (c.upsert kbytes posPacked tone utf8 nowMs).entries.map LruEntry.triple) :
    c.entries.length = kLruCap ∧ (kbytes, posPacked, utf8) ∉ c.entries.map LruEntry.triple ∧
      ∀ f ∈ c.entries, score g ≤ score f := by
  have ha : Accepts kbytes utf8 := by
    by_contra ha
    rw [upsert_rejected c kbytes utf8 posPacked tone nowMs ha] at hout
    exact hout (List.mem_map_of_mem hg)
  obtain ⟨n, hn, htriple, -, -, hframe⟩ := upsert_slot c kbytes utf8 posPacked tone nowMs ha
  obtain ⟨j, hj⟩ := List.mem_iff_getElem?.mp hg
  have hslot : j = c.upsertSlot kbytes utf8 posPacked := by
    by_contra hne
    exact hout (List.mem_map_of_mem (List.mem_of_getElem? ((hframe j hne).trans hj)))
  by_cases hmem : (kbytes, posPacked, utf8) ∈ c.entries.map LruEntry.triple
  · -- The triple of the slot is refreshed, and so still there.
    obtain ⟨idx, e, hf, he, hsame, -⟩ := upsert_present c kbytes utf8 posPacked tone nowMs ha hmem
    rw [upsertSlot, hf] at hslot
    rw [hslot, he, Option.some.injEq] at hj
    rw [← hj, hsame, ← htriple] at hout
    exact absurd (List.mem_map_of_mem (List.mem_of_getElem? hn)) hout
  · rw [upsertSlot, find_exact_absent c kbytes utf8 posPacked hmem] at hslot
    dsimp only at hslot
    split at hslot
    · rw [hslot, List.getElem?_eq_none (le_refl _)] at hj
      cases hj
    · rename_i hfull
      obtain ⟨v, hv, hleast, -⟩ := evict_victim_spec c (List.ne_nil_of_mem hg)
      rw [hslot, hv, Option.some.injEq] at hj
      exact ⟨le_antisymm c.fits (not_lt.mp hfull), hmem, hj ▸ hleast⟩

theorem matches_unhinted (e : LruEntry) (keys : Bytes) (hints : Option Bytes)
    (h : matchesKeys e keys hints = true) : matchesKeys e keys none = true := by
  simp only [matchesKeys, Bool.and_eq_true, List.all_eq_true] at h ⊢
  refine ⟨h.1, ?_⟩
  intro k _
  rw [hintMatches, beq_self_eq_true, Bool.true_or, Bool.true_or]

end Frame

end LruCache

namespace Session

theorem boot_cache (saved : LruCache.History) (trailing : Bytes) :
    boot saved trailing = ⟨saved.cache, [], 0⟩ := by
  rw [boot, LruCache.deserialize_image]

theorem sorted_boot (saved : LruCache.History) (trailing : Bytes) :
    (boot saved trailing).Sorted where
  ok := by
    rw [boot_cache]
    exact LruCache.history_ok saved
  clock := fun _ _ h => absurd h List.not_mem_nil
  newer := fun _ _ h => absurd h List.not_mem_nil

theorem step_eq (s t : Session) (u : Commit) (h : s.step u = some t) :
    s.clockMs ≤ u.nowMs ∧ t = s.commit u := by
  rw [step] at h
  split at h
  · rename_i hle
    exact ⟨hle, (Option.some.inj h).symm⟩
  · cases h

theorem commit_entry (s : Session) (u : Commit) (hok : s.cache.Ok) (e : LruEntry)
    (he : e ∈ (s.commit u).cache.entries) :
    e.triple = u.triple ∧ e.lastUsedMs = u.nowMs ∨ e.triple ≠ u.triple ∧ e ∈ s.cache.entries := by
  obtain ⟨i, hi⟩ := List.mem_iff_getElem?.mp he
  rcases LruCache.upsert_entries s.cache u.kbytes u.utf8 u.posPacked u.tone u.nowMs hok i e hi
    with h | h
  · exact .inl h
  · exact .inr ⟨h.1, List.mem_of_getElem? h.2⟩

theorem clocked_commit (s : Session) (u : Commit) (hs : s.Clocked) (hle : s.clockMs ≤ u.nowMs) :
    (s.commit u).Clocked where
  ok := LruCache.ok_upsert _ _ _ _ _ _ hs.ok
  clock := by
    intro g hg hused
    rcases commit_entry s u hs.ok g hg with h | ⟨hne, hmem⟩
    · exact UInt32.le_of_eq h.2
    · have hold := (List.mem_cons.mp hused).resolve_left hne
      exact UInt32.le_trans (hs.clock g hmem hold) hle

theorem clocked_run (saved : LruCache.History) (trailing : Bytes) (us : List Commit) (s : Session)
    (hs : exec step (boot saved trailing) us = some s) : s.Clocked := by
  apply exec_invariant step (fun _ _ => True) Clocked _ us _ s
    (sorted_boot saved trailing).toClocked (along_of_forall step _ (fun _ _ => trivial) us _) hs
  intro s u t hs _ ht
  obtain ⟨hle, rfl⟩ := step_eq s t u ht
  exact clocked_commit s u hs hle

theorem sorted_commit (s : Session) (u : Commit) (hs : s.Sorted) (hle : s.clockMs ≤ u.nowMs)
    (hu : Later s u) : (s.commit u).Sorted where
  toClocked := clocked_commit s u hs.toClocked hle
  newer := by
    intro g hg hused f hf hunused
    have hf' : f ∈ s.cache.entries ∧ f.triple ∉ s.used := by
      rcases commit_entry s u hs.ok f hf with h | h
      · exact absurd (List.mem_cons.mpr (.inl h.1)) hunused
      · exact ⟨h.2, fun h' => hunused (List.mem_cons_of_mem _ h')⟩
    rcases commit_entry s u hs.ok g hg with h | ⟨hne, hmem⟩
    · rw [h.2]
      exact hu.loaded f hf'.1 hf'.2
    · have hold := (List.mem_cons.mp hused).resolve_left hne
      exact hs.newer g hmem hold f hf'.1 hf'.2

/-- Commits that all come later than what was loaded are on time. -/
theorem on_time_of_later (saved : LruCache.History) (trailing : Bytes) (us : List Commit)
    (h : Along step Later (boot saved trailing) us) :
    Along step OnTime (boot saved trailing) us := by
  apply along_imp_of_invariant step Later OnTime Sorted _ _ us _ (sorted_boot saved trailing) h
  · intro s u t hs hu ht
    obtain ⟨hle, rfl⟩ := step_eq s t u ht
    exact sorted_commit s u hs hle hu
  · intro s u hs hu
    exact {
      loaded := fun j f _ hf _ hunused =>
        UInt32.le_of_lt (hu.loaded f (List.mem_of_getElem? hf) hunused)
      tied := hu.tied
      full := fun _ _ g hg hused f hf hunused _ => hs.newer g hg hused f hf hunused }

/-- What was used since the boot and is evicted was used less often than everything
that stays and was not. -/
theorem evicted_count (s : Session) (u : Commit) (hs : s.Clocked) (hu : OnTime s u)
    (g : LruEntry) (hg : g ∈ s.cache.entries) (hused : g.triple ∈ s.used)
    (hout : g.triple ∉ (s.commit u).cache.entries.map LruEntry.triple) (f : LruEntry)
    (hf : f ∈ (s.commit u).cache.entries) (hunused : f.triple ∉ (s.commit u).used) :
    g.useCount < f.useCount := by
  have hold : f ∈ s.cache.entries := by
    rcases commit_entry s u hs.ok f hf with h | h
    · exact absurd (List.mem_cons.mpr (.inl h.1)) hunused
    · exact h.2
  obtain ⟨hfull, hnew, hleast⟩ := LruCache.evicted_score s.cache u.kbytes u.utf8 u.posPacked
    u.tone u.nowMs g hg hout
  have hscore := hleast f hold
  by_contra hnot
  have hcount : f.useCount ≤ g.useCount := UInt16.not_lt.mp hnot
  have htime := UInt32.lt_iff_toNat_lt.mp (hu.full hfull hnew g hg hused f hold
    (fun h => hunused (List.mem_cons_of_mem _ h)) hcount)
  rw [LruCache.score, LruCache.score, LruCache.kReuseBonusMs] at hscore
  have hle := UInt16.le_iff_toNat_le.mp hcount
  omega

/-- In every session whose commits are on time, a triple is found first by its keys after its
commit, and what was used since the boot is not evicted while something loaded, not used
since and used no more often stays. -/
theorem reboot_recency (saved : LruCache.History) (trailing : Bytes) (us : List Commit)
    (u : Commit) (s t : Session) (h : Along step OnTime (boot saved trailing) (us++[u]))
    (hs : exec step (boot saved trailing) us = some s) (ht : s.step u = some t) :
    (LruCache.Accepts u.kbytes u.utf8 → ∀ (hints : Option Bytes) (maxResults : ℕ),
      0 < maxResults →
      (∀ k < u.kbytes.length, hintMatches (lruUnpackPhonemeHint u.posPacked k)
        (match hints with
          | some h => h.getD k kHintAny
          | none => kHintAny) = true) →
      ∃ e ∈ t.cache.entries, ∃ rest, e.triple = u.triple ∧
        t.cache.lookup u.kbytes hints maxResults = LruCache.emit e::rest) ∧
    ∀ g ∈ s.cache.entries, g.triple ∈ s.used → g.triple ∉ t.cache.entries.map LruEntry.triple →
      ∀ f ∈ t.cache.entries, f.triple ∉ t.used → g.useCount < f.useCount := by
  obtain ⟨-, hu⟩ := along_append step OnTime us [u] _ s h hs
  have hclocked := clocked_run saved trailing us s hs
  obtain ⟨hle, rfl⟩ := step_eq s t u ht
  constructor
  · intro ha hints maxResults hmax hm
    obtain ⟨e, he, rest, htriple, hrest, -⟩ := LruCache.upsert_first s.cache u.kbytes u.utf8
      u.posPacked u.tone u.nowMs hints maxResults hmax ha hm (by
        intro j f hj hf hmatch
        have hmem := List.mem_of_getElem? hf
        have hbefore : f.lastUsedMs ≤ u.nowMs := by
          by_cases hused : f.triple ∈ s.used
          · exact UInt32.le_trans (hclocked.clock f hmem hused) hle
          · exact hu.1.loaded j f hj hf (LruCache.matches_unhinted f _ _ hmatch) hused
        rcases UInt32.lt_or_eq_of_le hbefore with hlt | heq
        · exact .inl hlt
        · exact .inr ⟨heq, hu.1.tied j f hj hf (LruCache.matches_unhinted f _ _ hmatch) heq⟩)
    exact ⟨e, he, rest, htriple, hrest⟩
  · intro g hg hused hout f hf hunused
    exact evicted_count s u hclocked hu.1 g hg hused hout f hf hunused

def oneSaved : LruCache.History := .upsert .start [0x21] 0xFF 0 (Ime.utf8 '八') 5000000

def fullSaved : LruCache.History :=
  (List.range 128).foldl (fun h i => .upsert h [0x22] (UInt8.ofNat i) 0 [0x41] 5000000) .start

def soon : Commit := ⟨[0x21], 0xFF, 0, Ime.utf8 '不', 9000⟩

def next : Commit := ⟨[0x21], 0xFF, 0, Ime.utf8 '八', 9500⟩

/-- A word committed soon after the boot comes behind that of the session before. From a full
cache it is evicted by the next commit, though a triple that was loaded stays, unused since
and used once. -/
theorem stale_times :
    (((boot oneSaved []).commit soon).cache.lookup [0x21] none 100).map (fun hit => hit.1.word) =
      [Ime.utf8 '八', Ime.utf8 '不'] ∧
    soon.triple ∈ ((boot fullSaved []).commit soon).cache.entries.map LruEntry.triple ∧
    let t := ((boot fullSaved []).commit soon).commit next
    soon.triple ∉ t.cache.entries.map LruEntry.triple ∧
    ∃ f ∈ t.cache.entries, f.triple ∉ t.used ∧ f.useCount = 1 := by
  refine ⟨by decide +kernel, ?_, ?_⟩
  · obtain ⟨e, he, htriple, -⟩ := LruCache.upsert_slot (boot fullSaved []).cache [0x21]
      (Ime.utf8 '不') 0xFF 0 9000 ⟨by decide, by decide⟩
    have hmem := List.mem_map_of_mem (f := LruEntry.triple) (List.mem_of_getElem? he)
    rwa [htriple] at hmem
  · rw [boot_cache]
    decide +kernel

theorem on_time_of_found (s : Session) (u : Commit)
    (hfound : ∀ e ∈ s.cache.entries, LruCache.matchesKeys e u.kbytes none = true →
      e.lastUsedMs < u.nowMs)
    (hroom : s.cache.entries.length < kLruCap) : OnTime s u where
  loaded := fun _ f _ hf hmatch _ => UInt32.le_of_lt (hfound f (List.mem_of_getElem? hf) hmatch)
  tied := by
    intro j f _ hf hmatch heq
    have hlt := hfound f (List.mem_of_getElem? hf) hmatch
    rw [heq] at hlt
    exact absurd hlt (UInt32.lt_irrefl _)
  full := fun hfull => absurd hfull (Nat.ne_of_lt hroom)

def otherKey : Commit := ⟨[0x22], 0xFF, 0, Ime.utf8 '不', 9000⟩

def sameKey : Commit := ⟨[0x21], 0xFF, 0, Ime.utf8 '不', 6000000⟩

theorem later_time : ∃ t, exec step (boot oneSaved []) [otherKey, sameKey] = some t ∧
    ∃ e ∈ t.cache.entries, ∃ rest, e.triple = sameKey.triple ∧
      t.cache.lookup [0x21] none 100 = LruCache.emit e::rest := by
  have hother : OnTime (boot oneSaved []) otherKey :=
    on_time_of_found _ _ (by decide +kernel) (by decide +kernel)
  have hsame : OnTime ((boot oneSaved []).commit otherKey) sameKey :=
    on_time_of_found _ _ (by decide +kernel) (by decide +kernel)
  have hfirst : step (boot oneSaved []) otherKey = some ((boot oneSaved []).commit otherKey) :=
    if_pos (by decide)
  have hsecond : step ((boot oneSaved []).commit otherKey) sameKey =
      some (((boot oneSaved []).commit otherKey).commit sameKey) := if_pos (by decide)
  have halong : Along step OnTime (boot oneSaved []) ([otherKey]++[sameKey]) := by
    refine ⟨hother, fun t ht => ⟨?_, fun _ _ => trivial⟩⟩
    rw [hfirst, Option.some.injEq] at ht
    exact ht ▸ hsame
  refine ⟨_, by rw [exec, hfirst, Option.bind_some, exec, hsecond]; rfl, ?_⟩
  exact (reboot_recency oneSaved [] [otherKey] sameKey _ _ halong
    (by rw [exec, hfirst]; rfl) hsecond).1 ⟨by decide, by decide⟩ none 100 (by decide) (by decide)

end Session

end MokyaLora
