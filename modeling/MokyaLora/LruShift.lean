import MokyaLora.LruRecall

/-!
# A cache whose clock is shifted

Adding a constant to every stored time keeps the cache's answers while the entries
that are compared pass the wrap of the 32-bit clock together.
-/

set_option autoImplicit false

namespace MokyaLora
open Lib.Fields Lib.Ranked

section Times

variable (c : UInt32)

def Wraps (x : UInt32) : Prop := UInt32.size ≤ x.toNat+c.toNat

instance (x : UInt32) : Decidable (Wraps c x) := by
  unfold Wraps
  infer_instance

theorem shift_wrapped (x : UInt32) (h : Wraps c x) : (x+c).toNat+UInt32.size = x.toNat+c.toNat := by
  have hx := x.toNat_lt
  have hc := c.toNat_lt
  have hsize : UInt32.size = 4294967296 := rfl
  rw [Wraps, hsize] at h
  rw [UInt32.toNat_add, hsize]
  omega

theorem shift_unwrapped (x : UInt32) (h : ¬ Wraps c x) : (x+c).toNat = x.toNat+c.toNat := by
  rw [Wraps, not_le] at h
  rw [UInt32.toNat_add, Nat.mod_eq_of_lt h]

theorem shift_lt (x y : UInt32) (h : Wraps c x ↔ Wraps c y) : x+c < y+c ↔ x < y := by
  rw [UInt32.lt_iff_toNat_lt, UInt32.lt_iff_toNat_lt]
  by_cases hx : Wraps c x
  · have hx' := shift_wrapped c x hx
    have hy' := shift_wrapped c y (h.mp hx)
    omega
  · have hx' := shift_unwrapped c x hx
    have hy' := shift_unwrapped c y (fun hy => hx (h.mpr hy))
    omega

end Times

def LruEntry.shift (c : UInt32) (e : LruEntry) : LruEntry :=
  { e with lastUsedMs := e.lastUsedMs+c }

namespace LruCache

variable (c : UInt32) (lru : LruCache)

theorem shifted_valid (es : List LruEntry) (h : ∀ e ∈ es, e.Valid) :
    ∀ e ∈ es.map (LruEntry.shift c), e.Valid := by
  intro e he
  obtain ⟨f, hf, rfl⟩ := List.mem_map.mp he
  exact h f hf

def shift : LruCache :=
  ⟨lru.entries.map (LruEntry.shift c), le_of_eq_of_le (List.length_map ..) lru.fits,
    shifted_valid c _ lru.valid⟩

theorem shift_entries : (lru.shift c).entries = lru.entries.map (LruEntry.shift c) := rfl

theorem entries_ext {a b : LruCache} (h : a.entries = b.entries) : a = b := by
  cases a
  cases b
  cases h
  rfl

def Meet (e f : LruEntry) : Prop :=
  ∃ keys hints, matchesKeys e keys hints = true ∧ matchesKeys f keys hints = true

theorem Meet.symm {e f : LruEntry} (h : Meet e f) : Meet f e := by
  obtain ⟨keys, hints, he, hf⟩ := h
  exact ⟨keys, hints, hf, he⟩

/-- Entries that are compared pass the wrap together. -/
def Level (es : List LruEntry) : Prop :=
  ∀ e ∈ es, ∀ f ∈ es, Meet e f → (Wraps c e.lastUsedMs ↔ Wraps c f.lastUsedMs)

theorem staler_shift (e f : LruEntry) (h : Wraps c e.lastUsedMs ↔ Wraps c f.lastUsedMs) :
    staler (e.shift c) (f.shift c) = staler e f := by
  have hlt := shift_lt c e.lastUsedMs f.lastUsedMs h
  have heq : e.lastUsedMs+c = f.lastUsedMs+c ↔ e.lastUsedMs = f.lastUsedMs :=
    UInt32.add_left_inj c
  rw [staler, staler, decide_eq_decide]
  exact or_congr hlt (and_congr heq Iff.rfl)

theorem dedup_shift (maxResults : ℕ) (ms : List LruEntry) :
    dedupMatches maxResults (ms.map (LruEntry.shift c)) =
      (dedupMatches maxResults ms).map (LruEntry.shift c) := by
  have hfold : ∀ out : List LruEntry, (ms.map (LruEntry.shift c)).foldl (fun out e =>
        if out.length < maxResults ∧ ¬ out.any (fun o => sameWord o e) then out++[e] else out)
        (out.map (LruEntry.shift c)) =
      (ms.foldl (fun out e =>
        if out.length < maxResults ∧ ¬ out.any (fun o => sameWord o e) then out++[e] else out)
        out).map (LruEntry.shift c) := by
    induction ms with
    | nil => exact fun _ => rfl
    | cons e ms ih =>
      intro out
      have hany : (out.map (LruEntry.shift c)).any (fun o => sameWord o (e.shift c)) =
          out.any (fun o => sameWord o e) := List.any_map
      rw [List.map_cons, List.foldl_cons, List.foldl_cons, List.length_map, hany, ← ih]
      split
      · rw [List.map_append, List.map_singleton]
      · rfl
  exact hfold []

theorem lookup_shift (h : Level c lru.entries) (keys : Bytes) (hints : Option Bytes)
    (maxResults : ℕ) : (lru.shift c).lookup keys hints maxResults =
      lru.lookup keys hints maxResults := by
  have hfilter : (lru.shift c).entries.filter (fun e => matchesKeys e keys hints) =
      (lru.entries.filter (fun e => matchesKeys e keys hints)).map (LruEntry.shift c) :=
    List.filter_map
  have hsort := shifted_map staler staler (LruEntry.shift c)
    (lru.entries.filter (fun e => matchesKeys e keys hints)) [] (by
      intro e f he hf
      obtain ⟨hememb, hekeys⟩ := List.mem_filter.mp (he.resolve_left List.not_mem_nil)
      obtain ⟨hfmemb, hfkeys⟩ := List.mem_filter.mp (hf.resolve_left List.not_mem_nil)
      exact staler_shift c e f (h e hememb f hfmemb ⟨keys, hints, hekeys, hfkeys⟩))
  rw [List.map_nil] at hsort
  rw [lookup, lookup, hfilter, sortMatches, hsort, dedup_shift, List.map_map]
  rfl

theorem score_shift (e : LruEntry) :
    score (e.shift c)+(if Wraps c e.lastUsedMs then UInt32.size else 0) = score e+c.toNat := by
  by_cases h : Wraps c e.lastUsedMs
  · have hs := shift_wrapped c e.lastUsedMs h
    rw [if_pos h]
    show (e.lastUsedMs+c).toNat+kReuseBonusMs*e.useCount.toNat+UInt32.size =
      e.lastUsedMs.toNat+kReuseBonusMs*e.useCount.toNat+c.toNat
    omega
  · have hs := shift_unwrapped c e.lastUsedMs h
    rw [if_neg h]
    show (e.lastUsedMs+c).toNat+kReuseBonusMs*e.useCount.toNat+0 =
      e.lastUsedMs.toNat+kReuseBonusMs*e.useCount.toNat+c.toNat
    omega

theorem victim_unique (es : List LruEntry) (i j : ℕ) (hi : IsVictim es i) (hj : IsVictim es j) :
    i = j := by
  obtain ⟨e, he, hle, hfirst⟩ := hi
  obtain ⟨f, hf, hle', hfirst'⟩ := hj
  rcases lt_trichotomy i j with h | h | h
  · exact absurd (hfirst' i e h he) (not_lt_of_ge (hle f (List.mem_of_getElem? hf)))
  · exact h
  · exact absurd (hfirst j f h hf) (not_lt_of_ge (hle' e (List.mem_of_getElem? he)))

/-- The victim of the shifted entries is the same, if it passes the wrap with them, or
those that pass it alone score far higher. -/
def Stays (es : List LruEntry) (i : ℕ) : Prop :=
  ∀ v, es[i]? = some v → Wraps c v.lastUsedMs ∨
    ∀ f ∈ es, Wraps c f.lastUsedMs → score v+UInt32.size < score f

theorem score_shift_le (v f : LruEntry)
    (h : Wraps c v.lastUsedMs ∨ (Wraps c f.lastUsedMs → score v+UInt32.size < score f)) :
    (score v ≤ score f → score (v.shift c) ≤ score (f.shift c)) ∧
    (score v < score f → score (v.shift c) < score (f.shift c)) := by
  have hv := score_shift c v
  have hf := score_shift c f
  by_cases hw : Wraps c v.lastUsedMs
  · rw [if_pos hw] at hv
    split at hf <;> omega
  · rw [if_neg hw] at hv
    by_cases hw' : Wraps c f.lastUsedMs
    · have hfar := h.resolve_left hw hw'
      rw [if_pos hw'] at hf
      omega
    · rw [if_neg hw'] at hf
      omega

theorem victim_shift (es : List LruEntry) (i : ℕ) (hi : IsVictim es i) (h : Stays c es i) :
    IsVictim (es.map (LruEntry.shift c)) i := by
  obtain ⟨v, hv, hle, hfirst⟩ := hi
  have hfar : ∀ f ∈ es, Wraps c v.lastUsedMs ∨ (Wraps c f.lastUsedMs → score v+UInt32.size < score f) :=
    fun f hf => (h v hv).imp_right (fun hall => hall f hf)
  refine ⟨v.shift c, by rw [List.getElem?_map, hv]; rfl, ?_, ?_⟩
  · intro g hg
    obtain ⟨f, hf, rfl⟩ := List.mem_map.mp hg
    exact (score_shift_le c v f (hfar f hf)).1 (hle f hf)
  · intro j g hj hg
    rw [List.getElem?_map] at hg
    obtain ⟨f, hf, rfl⟩ := Option.map_eq_some_iff.mp hg
    exact (score_shift_le c v f (hfar f (List.mem_of_getElem? hf))).2 (hfirst j f hj hf)

section Upsert

variable (kbytes utf8 : Bytes) (posPacked tone : UInt8) (nowMs : UInt32)

def Evicts (i : ℕ) : Prop :=
  (kbytes, posPacked, utf8) ∉ lru.entries.map LruEntry.triple ∧
    lru.entries.length = kLruCap ∧ IsVictim lru.entries i

/-- No comparison that the upsert brings about is across the wrap: what is evicted
stays so, and what is compared with the new entry passes the wrap with it. -/
structure WrapsTogether : Prop where
  victim : ∀ i, lru.Evicts kbytes utf8 posPacked i → Stays c lru.entries i
  others : ∀ i f, lru.entries[i]? = some f → f.triple ≠ (kbytes, posPacked, utf8) →
    ¬ lru.Evicts kbytes utf8 posPacked i →
    Meet f (freshEntry kbytes posPacked 0 utf8 nowMs) →
    (Wraps c f.lastUsedMs ↔ Wraps c nowMs)

theorem find_exact_shift : (lru.shift c).findExact kbytes posPacked utf8 =
    lru.findExact kbytes posPacked utf8 := by
  rw [findExact, findExact, shift, List.findIdx?_map]
  rfl

theorem upsert_shift
    (h : Accepts kbytes utf8 → WrapsTogether c lru kbytes utf8 posPacked nowMs) :
    (lru.shift c).upsert kbytes posPacked tone utf8 (nowMs+c) =
      (lru.upsert kbytes posPacked tone utf8 nowMs).shift c := by
  apply entries_ext
  by_cases ha : Accepts kbytes utf8
  · have htriples : (lru.shift c).entries.map LruEntry.triple =
        lru.entries.map LruEntry.triple := List.map_map
    by_cases hmem : (kbytes, posPacked, utf8) ∈ lru.entries.map LruEntry.triple
    · obtain ⟨i, e, hi, he, -, hset⟩ :=
        upsert_present lru kbytes utf8 posPacked tone nowMs ha hmem
      obtain ⟨j, f, hj, hf, -, hset'⟩ :=
        upsert_present (lru.shift c) kbytes utf8 posPacked tone (nowMs+c) ha (htriples ▸ hmem)
      rw [find_exact_shift, hi, Option.some.injEq] at hj
      subst hj
      have hfe : f = e.shift c := by
        rw [shift, List.getElem?_map, he] at hf
        exact (Option.some.inj hf).symm
      rw [hset', hfe, shift_entries, shift_entries, hset, List.map_set]
      rfl
    · obtain ⟨hroom, hfull⟩ := upsert_absent lru kbytes utf8 posPacked tone nowMs ha hmem
      obtain ⟨hroom', hfull'⟩ :=
        upsert_absent (lru.shift c) kbytes utf8 posPacked tone (nowMs+c) ha (htriples ▸ hmem)
      have hlen : (lru.shift c).entries.length = lru.entries.length := List.length_map ..
      rw [hlen] at hroom' hfull'
      rcases Nat.lt_or_eq_of_le lru.fits with hlt | heq
      · rw [hroom' hlt, shift_entries, shift_entries, hroom hlt, List.map_append]
        rfl
      · have hne : lru.entries ≠ [] := by
          intro hnil
          rw [hnil] at heq
          cases heq
        have hv := evict_victim_spec lru hne
        have hne' : (lru.shift c).entries ≠ [] := fun hnil => hne (List.map_eq_nil_iff.mp hnil)
        have hvictim : (lru.shift c).findEvictVictim = lru.findEvictVictim :=
          victim_unique _ _ _ (evict_victim_spec _ hne')
            (victim_shift c _ _ hv ((h ha).victim _ ⟨hmem, heq, hv⟩))
        rw [hfull' heq, hvictim, shift_entries, shift_entries, hfull heq, List.map_set]
        rfl
  · rw [upsert_rejected _ _ _ _ _ _ ha, upsert_rejected _ _ _ _ _ _ ha]

theorem matches_of_triple (e f : LruEntry) (he : e.Valid) (hf : f.Valid)
    (h : e.triple = f.triple) : matchesKeys e = matchesKeys f := by
  simp only [LruEntry.triple, Prod.mk.injEq] at h
  obtain ⟨hk, hp, -⟩ := h
  have hlen : e.klen = f.klen := by
    rw [← UInt8.toNat_inj, ← e.keys_length he, ← f.keys_length hf, hk]
  funext keys hints
  rw [matchesKeys, matchesKeys, hlen, hk, hp]

theorem evicts_slot (i : ℕ) (h : lru.Evicts kbytes utf8 posPacked i) :
    i = lru.upsertSlot kbytes utf8 posPacked := by
  obtain ⟨habsent, hfull, hi⟩ := h
  have hne : lru.entries ≠ [] := by
    intro hnil
    rw [hnil] at hfull
    cases hfull
  rw [upsertSlot, find_exact_absent lru kbytes utf8 posPacked habsent]
  dsimp only
  rw [if_neg (not_lt_of_ge (ge_of_eq hfull))]
  exact victim_unique _ _ _ hi (evict_victim_spec lru hne)

theorem level_upsert (hok : lru.Ok) (hl : Level c lru.entries)
    (h : Accepts kbytes utf8 → WrapsTogether c lru kbytes utf8 posPacked nowMs) :
    Level c (lru.upsert kbytes posPacked tone utf8 nowMs).entries := by
  by_cases ha : Accepts kbytes utf8
  · obtain ⟨e, he, htriple, htime, -, hframe⟩ :=
      upsert_slot lru kbytes utf8 posPacked tone nowMs ha
    have hvalid := LruCache.valid _ e (List.mem_of_getElem? he)
    have hdistinct := (ok_upsert lru kbytes utf8 posPacked tone nowMs hok).distinct
    have hold : ∀ j f, j ≠ lru.upsertSlot kbytes utf8 posPacked → lru.entries[j]? = some f →
        Meet f e → (Wraps c f.lastUsedMs ↔ Wraps c e.lastUsedMs) := by
      intro j f hj hf ⟨keys, hints, hfk, hek⟩
      have hother : f.triple ≠ (kbytes, posPacked, utf8) := by
        intro hsame
        have hboth := congrArg (Option.map LruEntry.triple) ((hframe j hj).trans hf)
        rw [Option.map_some, hsame, ← htriple, ← Option.map_some, ← he, ← List.getElem?_map,
          ← List.getElem?_map] at hboth
        have hlt := (List.getElem?_eq_some_iff.mp ((hframe j hj).trans hf)).choose
        exact hj ((List.getElem?_inj (by rwa [List.length_map]) hdistinct).mp hboth)
      have hfresh := matches_of_triple e (freshEntry kbytes posPacked 0 utf8 nowMs) hvalid
        (fresh_entry_valid kbytes posPacked 0 utf8 nowMs ha.1 ha.2)
        (htriple.trans (fresh_triple kbytes utf8 posPacked 0 nowMs ha).symm)
      rw [htime]
      exact (h ha).others j f hf hother (fun hv => hj (evicts_slot lru kbytes utf8 posPacked j hv))
        ⟨keys, hints, hfk, hfresh ▸ hek⟩
    intro a hmem b hmem' hmeet
    obtain ⟨i, hi⟩ := List.mem_iff_getElem?.mp hmem
    obtain ⟨j, hj⟩ := List.mem_iff_getElem?.mp hmem'
    by_cases hia : i = lru.upsertSlot kbytes utf8 posPacked
    · have hae : a = e := Option.some.inj (by rw [← hi, hia, he])
      by_cases hjb : j = lru.upsertSlot kbytes utf8 posPacked
      · have hbe : b = e := Option.some.inj (by rw [← hj, hjb, he])
        rw [hae, hbe]
      · rw [hframe j hjb] at hj
        rw [hae] at hmeet ⊢
        exact (hold j b hjb hj hmeet.symm).symm
    · rw [hframe i hia] at hi
      by_cases hjb : j = lru.upsertSlot kbytes utf8 posPacked
      · have hbe : b = e := Option.some.inj (by rw [← hj, hjb, he])
        rw [hbe] at hmeet ⊢
        exact hold i a hia hi hmeet
      · rw [hframe j hjb] at hj
        exact hl a (List.mem_of_getElem? hi) b (List.mem_of_getElem? hj) hmeet
  · rwa [upsert_rejected _ _ _ _ _ _ ha]

end Upsert

end LruCache

end MokyaLora
