import MokyaLora.LruInvariant

/-!
# What was learned last is found first

A lookup of the keys of the entry that was used last puts it in front, and no
other hit has its word.
-/

set_option autoImplicit false

namespace MokyaLora
open Lib.Fields Lib.Ranked

section Hints

def HintOk (h : UInt8) : Prop := h = 0 ∨ h = 1 ∨ h = 2 ∨ h = kHintAny

theorem hint_bits_lt (hint : UInt8) : (hintToBits hint).toNat < 4 := by
  unfold hintToBits
  split
  · decide
  · rw [UInt8.toNat_and]
    exact Nat.lt_succ_of_le Nat.and_le_right

theorem unpack_bits : ∀ a < 4, ∀ b < 4, ∀ c < 4, ∀ d < 4, ∀ k < 4,
    lruUnpackPhonemeHint (0 ||| UInt8.ofNat a <<< UInt8.ofNat 0 |||
      UInt8.ofNat b <<< UInt8.ofNat 2 ||| UInt8.ofNat c <<< UInt8.ofNat 4 |||
      UInt8.ofNat d <<< UInt8.ofNat 6) k = bitsToHint (UInt8.ofNat ([a, b, c, d].getD k 0)) := by
  decide +kernel

theorem unpack_packed (hints : Bytes) (k : ℕ) (hk : k < 4) :
    lruUnpackPhonemeHint (lruPackPhonemeHints hints) k =
      bitsToHint (hintToBits (hints.getD k kHintAny)) := by
  have hbits := unpack_bits _ (hint_bits_lt (hints.getD 0 kHintAny)) _
    (hint_bits_lt (hints.getD 1 kHintAny)) _ (hint_bits_lt (hints.getD 2 kHintAny)) _
    (hint_bits_lt (hints.getD 3 kHintAny)) k hk
  simp only [UInt8.ofNat_toNat] at hbits
  have hpack : lruPackPhonemeHints hints = 0 |||
      hintToBits (hints.getD 0 kHintAny) <<< UInt8.ofNat 0 |||
      hintToBits (hints.getD 1 kHintAny) <<< UInt8.ofNat 2 |||
      hintToBits (hints.getD 2 kHintAny) <<< UInt8.ofNat 4 |||
      hintToBits (hints.getD 3 kHintAny) <<< UInt8.ofNat 6 := rfl
  rw [hpack, hbits]
  match k, hk with
  | 0, _ => rw [List.getD_cons_zero, UInt8.ofNat_toNat]
  | 1, _ => rw [List.getD_cons_succ, List.getD_cons_zero, UInt8.ofNat_toNat]
  | 2, _ => rw [List.getD_cons_succ, List.getD_cons_succ, List.getD_cons_zero, UInt8.ofNat_toNat]
  | 3, _ =>
    rw [List.getD_cons_succ, List.getD_cons_succ, List.getD_cons_succ, List.getD_cons_zero,
      UInt8.ofNat_toNat]

theorem hint_bits (h : UInt8) (hh : HintOk h) : bitsToHint (hintToBits h) = h := by
  rcases hh with rfl | rfl | rfl | rfl <;> rfl

/-- Packed hints match those they were packed from, also past the fourth. -/
theorem packed_matches (hints : Bytes) (hh : ∀ h ∈ hints, HintOk h) (k : ℕ) :
    hintMatches (lruUnpackPhonemeHint (lruPackPhonemeHints hints) k)
      (hints.getD k kHintAny) = true := by
  by_cases hk : k < 4
  · have hget : HintOk (hints.getD k kHintAny) := by
      rw [List.getD_eq_getElem?_getD]
      cases hg : hints[k]? with
      | none => exact .inr (.inr (.inr rfl))
      | some h => exact hh h (List.mem_of_getElem? hg)
    rw [unpack_packed hints k hk, hint_bits _ hget, hintMatches, beq_self_eq_true, Bool.or_true]
  · have hany : lruUnpackPhonemeHint (lruPackPhonemeHints hints) k = kHintAny :=
      if_pos (not_lt.mp hk)
    rw [hany, hintMatches, beq_self_eq_true, Bool.or_true, Bool.true_or]

end Hints

namespace LruCache

section Lookup

theorem matches_own (e : LruEntry) (he : e.Valid) (hints : Option Bytes)
    (hh : ∀ k < e.klen.toNat, hintMatches (lruUnpackPhonemeHint e.posPacked k)
      (match hints with
        | some h => h.getD k kHintAny
        | none => kHintAny) = true) :
    matchesKeys e e.keys hints = true := by
  have hlen := e.keys_length he
  have hkeys : e.keys.take e.klen.toNat = e.keys := by
    rw [← hlen, List.take_length]
  have hne : e.klen ≠ 0 := by
    intro hz
    have hpos := he.1
    rw [hz] at hpos
    exact absurd hpos (by decide)
  simp only [matchesKeys, Bool.and_eq_true, decide_eq_true_eq, List.all_eq_true]
  constructor
  · exact ⟨hne, le_of_eq hlen.symm, fun h => h.1 hlen.symm, hkeys.symm⟩
  · intro k hk
    exact hh k (List.mem_range.mp hk)

theorem staler_asymm (e f : LruEntry) (h : staler e f = true) : staler f e = false := by
  simp only [staler, decide_eq_true_eq, decide_eq_false_iff_not] at h ⊢
  rcases h with h | ⟨heq, h⟩
  · rintro (h' | ⟨h', -⟩)
    · exact UInt32.lt_asymm h h'
    · exact UInt32.ne_of_lt h h'.symm
  · rintro (h' | ⟨-, h'⟩)
    · exact UInt32.ne_of_lt h' heq.symm
    · exact UInt16.lt_asymm h h'

theorem dedup_head (maxResults : ℕ) (hmax : 0 < maxResults) (e : LruEntry) (ms : List LruEntry) :
    ∃ rest, dedupMatches maxResults (e::ms) = e::rest ∧
      ∀ f ∈ rest, sameWord e f = false := by
  have hfold : ∀ (ms done : List LruEntry), (∀ f ∈ done, sameWord e f = false) →
      ∃ rest, ms.foldl (fun out f =>
        if out.length < maxResults ∧ ¬ out.any (fun o => sameWord o f) then out++[f] else out)
        (e::done) = e::rest ∧ ∀ f ∈ rest, sameWord e f = false := by
    intro ms
    induction ms with
    | nil => exact fun done h => ⟨done, rfl, h⟩
    | cons m ms ih =>
      intro done h
      rw [List.foldl_cons]
      split
      · rename_i hm
        apply ih (done++[m])
        intro f hf
        rcases List.mem_append.mp hf with hf | hf
        · exact h f hf
        · rw [List.mem_singleton.mp hf]
          have hany := hm.2
          rw [List.any_cons, Bool.not_eq_true, Bool.or_eq_false_iff] at hany
          exact hany.1
      · exact ih done h
  have hfirst : (0 < maxResults ∧ ¬ ([] : List LruEntry).any (fun o => sameWord o e)) := by
    simpa using hmax
  rw [dedupMatches, List.foldl_cons, List.length_nil, if_pos hfirst]
  exact hfold ms [] (by simp)

theorem cstr_self (b : Bytes) (h : (0 : UInt8) ∉ b) : cstr b = b := by
  rw [cstr, List.takeWhile_eq_self_iff]
  intro c hc
  simp only [bne_iff_ne, ne_eq]
  rintro rfl
  exact h hc

theorem same_word_of_emit (e f : LruEntry) (he : (0 : UInt8) ∉ e.wordBytes)
    (h : (emit f).1.word = e.wordBytes) : sameWord e f = true := by
  have hf : cstr f.wordBytes = e.wordBytes := h
  have hle : e.wordBytes.length ≤ f.wordBytes.length := by
    rw [← hf]
    exact cstr_length f.wordBytes
  rw [sameWord, decide_eq_true_eq, cstr_self _ he, hf]
  refine ⟨List.take_of_length_le hle, ?_⟩
  rw [List.getD_eq_getElem?_getD, List.getElem?_eq_none hle, Option.getD_none]

/-- An entry is found first, and its word once, when the other matches are staler, or
as stale and in later slots. -/
theorem lookup_slot (c : LruCache) (keys : Bytes) (hints : Option Bytes) (maxResults : ℕ)
    (hmax : 0 < maxResults) (i : ℕ) (e : LruEntry) (he : c.entries[i]? = some e)
    (hm : matchesKeys e keys hints = true)
    (hothers : ∀ j f, j ≠ i → c.entries[j]? = some f → matchesKeys f keys hints = true →
      staler f e = true ∨ staler e f = false ∧ i < j) :
    ∃ rest, c.lookup keys hints maxResults = emit e::rest ∧
      ((0 : UInt8) ∉ e.wordBytes → ∀ hit ∈ rest, hit.1.word ≠ e.wordBytes) := by
  obtain ⟨hi, hget⟩ := List.getElem?_eq_some_iff.mp he
  have hsplit : c.entries = c.entries.take i++e::c.entries.drop (i+1) := by
    rw [← hget, ← List.drop_eq_getElem_cons hi, List.take_append_drop]
  have hfilter : c.entries.filter (fun f => matchesKeys f keys hints) =
      (c.entries.take i).filter (fun f => matchesKeys f keys hints)++
        e::(c.entries.drop (i+1)).filter (fun f => matchesKeys f keys hints) := by
    conv_lhs => rw [hsplit]
    rw [List.filter_append, List.filter_cons, if_pos hm]
  obtain ⟨ms, hms⟩ := sorted_head staler e
    ((c.entries.take i).filter (fun f => matchesKeys f keys hints))
    ((c.entries.drop (i+1)).filter (fun f => matchesKeys f keys hints)) (by
      intro f hf
      obtain ⟨hmem, hmatch⟩ := List.mem_filter.mp hf
      obtain ⟨j, hj⟩ := List.mem_iff_getElem?.mp hmem
      rw [List.getElem?_take] at hj
      split at hj
      · rename_i hlt
        rcases hothers j f (Nat.ne_of_lt hlt) hj hmatch with h | ⟨-, h⟩
        · exact h
        · exact absurd h (Nat.lt_asymm hlt)
      · cases hj) (by
      intro f hf
      obtain ⟨hmem, hmatch⟩ := List.mem_filter.mp hf
      obtain ⟨j, hj⟩ := List.mem_iff_getElem?.mp hmem
      rw [List.getElem?_drop] at hj
      rw [Bool.not_eq_true]
      rcases hothers (i+1+j) f (by omega) hj hmatch with h | ⟨h, -⟩
      · exact staler_asymm f e h
      · exact h)
  obtain ⟨rest, hrest, hdup⟩ := dedup_head maxResults hmax e ms
  refine ⟨rest.map emit, ?_, ?_⟩
  · rw [lookup, sortMatches, hfilter, hms, hrest, List.map_cons]
  · intro hword hit hhit hsame
    obtain ⟨f, hf, rfl⟩ := List.mem_map.mp hhit
    have hno := hdup f hf
    rw [same_word_of_emit e f hword hsame] at hno
    exact Bool.noConfusion hno

end Lookup

section Upsert

variable (c : LruCache) (kbytes utf8 : Bytes) (posPacked tone : UInt8) (nowMs : UInt32)

def upsertSlot : ℕ :=
  match c.findExact kbytes posPacked utf8 with
  | some idx => idx
  | none => if c.entries.length < kLruCap then c.entries.length else c.findEvictVictim

def usesAfter : UInt16 :=
  match (c.findExact kbytes posPacked utf8).bind (fun idx => c.entries[idx]?) with
  | some e => if e.useCount < 0xFFFF then e.useCount+1 else e.useCount
  | none => 1

theorem append_slot (es : List LruEntry) (e : LruEntry) :
    (es++[e])[es.length]? = some e ∧ ∀ j ≠ es.length, (es++[e])[j]? = es[j]? := by
  constructor
  · exact List.getElem?_concat_length
  · intro j hj
    by_cases hlt : j < es.length
    · exact List.getElem?_append_left hlt
    · have hnone : (es++[e])[j]? = none := by
        apply List.getElem?_eq_none
        rw [List.length_append, List.length_singleton]
        omega
      rw [hnone, List.getElem?_eq_none (not_lt.mp hlt)]

theorem set_slot (es : List LruEntry) (i : ℕ) (hi : i < es.length) (e : LruEntry) :
    (es.set i e)[i]? = some e ∧ ∀ j ≠ i, (es.set i e)[j]? = es[j]? :=
  ⟨List.getElem?_set_self hi, fun _ hj => List.getElem?_set_ne (Ne.symm hj)⟩

theorem upsert_slot (ha : Accepts kbytes utf8) :
    ∃ e, (c.upsert kbytes posPacked tone utf8 nowMs).entries[
        c.upsertSlot kbytes utf8 posPacked]? = some e ∧
      e.triple = (kbytes, posPacked, utf8) ∧ e.lastUsedMs = nowMs ∧
      e.useCount = c.usesAfter kbytes utf8 posPacked ∧
      ∀ j ≠ c.upsertSlot kbytes utf8 posPacked,
        (c.upsert kbytes posPacked tone utf8 nowMs).entries[j]? = c.entries[j]? := by
  by_cases hmem : (kbytes, posPacked, utf8) ∈ c.entries.map LruEntry.triple
  · obtain ⟨idx, e, hf, he, htriple, hu⟩ :=
      upsert_present c kbytes utf8 posPacked tone nowMs ha hmem
    obtain ⟨hidx, -⟩ := List.getElem?_eq_some_iff.mp he
    have hslot : c.upsertSlot kbytes utf8 posPacked = idx := by rw [upsertSlot, hf]
    have huses : c.usesAfter kbytes utf8 posPacked = (touch e tone nowMs).useCount := by
      rw [usesAfter, hf, Option.bind_some, he]
      rfl
    obtain ⟨hself, hother⟩ := set_slot c.entries idx hidx (touch e tone nowMs)
    rw [hu, hslot, huses]
    exact ⟨touch e tone nowMs, hself, htriple, rfl, rfl, hother⟩
  · obtain ⟨hroom, hfull⟩ := upsert_absent c kbytes utf8 posPacked tone nowMs ha hmem
    have htriple := fresh_triple kbytes utf8 posPacked tone nowMs ha
    have hf := find_exact_absent c kbytes utf8 posPacked hmem
    have huses : c.usesAfter kbytes utf8 posPacked = 1 := by rw [usesAfter, hf, Option.bind_none]
    rw [huses]
    rcases Nat.lt_or_eq_of_le c.fits with hlt | heq
    · have hslot : c.upsertSlot kbytes utf8 posPacked = c.entries.length := by
        rw [upsertSlot, hf]
        exact if_pos hlt
      obtain ⟨hself, hother⟩ := append_slot c.entries (freshEntry kbytes posPacked tone utf8 nowMs)
      rw [hroom hlt, hslot]
      exact ⟨_, hself, htriple, rfl, rfl, hother⟩
    · have hslot : c.upsertSlot kbytes utf8 posPacked = c.findEvictVictim := by
        rw [upsertSlot, hf]
        exact if_neg (Nat.not_lt_of_ge (ge_of_eq heq))
      have hne : c.entries ≠ [] := by
        intro hnil
        rw [hnil] at heq
        cases heq
      obtain ⟨v, hv, -⟩ := evict_victim_spec c hne
      obtain ⟨hidx, -⟩ := List.getElem?_eq_some_iff.mp hv
      obtain ⟨hself, hother⟩ := set_slot c.entries _ hidx
        (freshEntry kbytes posPacked tone utf8 nowMs)
      rw [hfull heq, hslot]
      exact ⟨_, hself, htriple, rfl, rfl, hother⟩

/-- A triple is found first by its keys right after its upsert, and its word only
once, when the other matches were used before, or at the same time with fewer uses,
or with as many in later slots. -/
theorem upsert_first (hints : Option Bytes) (maxResults : ℕ) (hmax : 0 < maxResults)
    (ha : Accepts kbytes utf8)
    (hm : ∀ k < kbytes.length, hintMatches (lruUnpackPhonemeHint posPacked k)
      (match hints with
        | some h => h.getD k kHintAny
        | none => kHintAny) = true)
    (hothers : ∀ j f, j ≠ c.upsertSlot kbytes utf8 posPacked → c.entries[j]? = some f →
      matchesKeys f kbytes hints = true → f.lastUsedMs < nowMs ∨ f.lastUsedMs = nowMs ∧
        (f.useCount < c.usesAfter kbytes utf8 posPacked ∨
          f.useCount = c.usesAfter kbytes utf8 posPacked ∧
            c.upsertSlot kbytes utf8 posPacked < j)) :
    ∃ e ∈ (c.upsert kbytes posPacked tone utf8 nowMs).entries, ∃ rest,
      e.triple = (kbytes, posPacked, utf8) ∧
      (c.upsert kbytes posPacked tone utf8 nowMs).lookup kbytes hints maxResults = emit e::rest ∧
      ((0 : UInt8) ∉ utf8 → ∀ hit ∈ rest, hit.1.word ≠ utf8) := by
  obtain ⟨e, he, htriple, htime, huses, hframe⟩ :=
    upsert_slot c kbytes utf8 posPacked tone nowMs ha
  have htriple' := htriple
  simp only [LruEntry.triple, Prod.mk.injEq] at htriple'
  obtain ⟨hk, hp, hw⟩ := htriple'
  have hmem := List.mem_of_getElem? he
  have hvalid := (c.upsert kbytes posPacked tone utf8 nowMs).valid e hmem
  have hlen := e.keys_length hvalid
  obtain ⟨rest, hrest, hdup⟩ := lookup_slot _ kbytes hints maxResults hmax _ e he
    (hk ▸ matches_own e hvalid hints (hp ▸ hlen ▸ hk ▸ hm)) (by
      intro j f hj hf hmatch
      rw [hframe j hj] at hf
      rw [staler, staler, decide_eq_true_eq, decide_eq_false_iff_not, htime, huses]
      rcases hothers j f hj hf hmatch with h | ⟨htie, h | ⟨hcount, h⟩⟩
      · exact .inl (.inl h)
      · exact .inl (.inr ⟨htie, h⟩)
      · refine .inr ⟨?_, h⟩
        rw [htie, hcount]
        rintro (h | ⟨-, h⟩)
        · exact UInt32.lt_irrefl _ h
        · exact UInt16.lt_irrefl _ h)
  exact ⟨e, hmem, rest, htriple, hrest, hw ▸ hdup⟩

theorem learn_recall (hints : Bytes) (ha : Accepts kbytes utf8) (hh : ∀ h ∈ hints, HintOk h)
    (hword : (0 : UInt8) ∉ utf8) (hlater : ∀ e ∈ c.entries, e.lastUsedMs < nowMs)
    (maxResults : ℕ) (hmax : 0 < maxResults) :
    ∃ d rest, (c.upsert kbytes (lruPackPhonemeHints hints) tone utf8 nowMs).lookup kbytes
        (some hints) maxResults = (d, kbytes.length)::rest ∧ d.word = utf8 ∧
      ∀ hit ∈ rest, hit.1.word ≠ utf8 := by
  obtain ⟨e, he, rest, htriple, hrest, hdup⟩ :=
    upsert_first c kbytes utf8 _ tone nowMs (some hints) maxResults hmax ha
      (fun k _ => packed_matches hints hh k)
      (fun j f _ hf _ => .inl (hlater f (List.mem_of_getElem? hf)))
  simp only [LruEntry.triple, Prod.mk.injEq] at htriple
  obtain ⟨hk, -, hw⟩ := htriple
  refine ⟨(emit e).1, rest, ?_, ?_, hdup hword⟩
  · rw [hrest, ← hk, e.keys_length (LruCache.valid _ e he)]
    rfl
  · exact (cstr_self _ (hw.symm ▸ hword)).trans hw

end Upsert

end LruCache

end MokyaLora
