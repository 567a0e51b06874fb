import MokyaLora.LruSerial
import Mathlib.Data.List.Nodup

/-!
# The entries of the cache, and what an upsert does to them

The cache is a set of triples, each with the time and the number of its uses. An
upsert refreshes a triple or adds it, and a full cache gives up the triple of
least score.
-/

set_option autoImplicit false

namespace MokyaLora
open Lib.Fields

namespace LruEntry

def triple (e : LruEntry) : Bytes × UInt8 × Bytes := (e.keys, e.posPacked, e.wordBytes)

/-- The lengths are in range, the arrays zero behind them, and the entry was used. -/
structure Ok (e : LruEntry) : Prop where
  valid : e.Valid
  used : 1 ≤ e.useCount.toNat
  keysTail : ∀ i, ∀ h : i < 8, e.klen.toNat ≤ i → e.kbytes[i] = 0
  wordTail : ∀ i, ∀ h : i < 24, e.utf8Len.toNat ≤ i → e.utf8[i] = 0

end LruEntry

namespace LruCache

structure Ok (c : LruCache) : Prop where
  entries : ∀ e ∈ c.entries, e.Ok
  distinct : (c.entries.map LruEntry.triple).Nodup

def Accepts (kbytes utf8 : Bytes) : Prop :=
  (1 ≤ kbytes.length ∧ kbytes.length ≤ 8) ∧ 1 ≤ utf8.length ∧ utf8.length ≤ 24

section Fresh

theorem filled_take (n : ℕ) (b : Bytes) (h : b.length ≤ n) :
    (filled n b).toList.take b.length = b := by
  apply List.ext_getElem
  · simp [h]
  · intro i hi hi'
    simp [filled, hi']

theorem filled_tail (n : ℕ) (b : Bytes) (i : ℕ) (h : i < n) (hi : b.length ≤ i) :
    (filled n b)[i] = 0 := by
  simp [filled, hi]

variable (kbytes utf8 : Bytes) (posPacked tone : UInt8) (nowMs : UInt32)

theorem small_length {n : ℕ} (h : n ≤ 24) : (UInt8.ofNat n).toNat = n := by
  rw [UInt8.toNat_ofNat']
  omega

theorem fresh_triple (h : Accepts kbytes utf8) :
    (freshEntry kbytes posPacked tone utf8 nowMs).triple = (kbytes, posPacked, utf8) := by
  obtain ⟨⟨-, hk⟩, -, hu⟩ := h
  simp only [LruEntry.triple, LruEntry.keys, LruEntry.wordBytes, freshEntry]
  rw [small_length (le_trans hk (by decide)), small_length hu, filled_take 8 kbytes hk,
    filled_take 24 utf8 hu]

theorem fresh_ok (h : Accepts kbytes utf8) :
    (freshEntry kbytes posPacked tone utf8 nowMs).Ok where
  valid := fresh_entry_valid _ _ _ _ _ h.1 h.2
  used := le_refl 1
  keysTail := by
    intro i hi hle
    simp only [freshEntry, small_length (le_trans h.1.2 (by decide : 8 ≤ 24))] at hle ⊢
    exact filled_tail 8 kbytes i hi hle
  wordTail := by
    intro i hi hle
    simp only [freshEntry, small_length h.2.2] at hle ⊢
    exact filled_tail 24 utf8 i hi hle

end Fresh

section Touch

variable (e : LruEntry) (tone : UInt8) (nowMs : UInt32)

theorem touch_triple : (touch e tone nowMs).triple = e.triple := rfl

theorem touch_count :
    (touch e tone nowMs).useCount.toNat = min (e.useCount.toNat+1) 0xFFFF := by
  have hlt := e.useCount.toNat_lt
  unfold touch
  dsimp only
  split
  · rename_i h
    have h' : e.useCount.toNat < 0xFFFF := UInt16.lt_iff_toNat_lt.mp h
    rw [UInt16.toNat_add, show (1 : UInt16).toNat = 1 from rfl]
    omega
  · rename_i h
    have h' : ¬ e.useCount.toNat < 0xFFFF := fun hl => h (UInt16.lt_iff_toNat_lt.mpr hl)
    omega

theorem touch_ok (h : e.Ok) : (touch e tone nowMs).Ok where
  valid := h.valid
  used := by
    have := h.used
    rw [touch_count]
    omega
  keysTail := h.keysTail
  wordTail := h.wordTail

end Touch

section Find

variable (c : LruCache) (kbytes utf8 : Bytes) (posPacked : UInt8)

theorem exact_iff (e : LruEntry) (h : e.Valid) : (e.klen.toNat = kbytes.length ∧
    e.posPacked = posPacked ∧ e.utf8Len.toNat = utf8.length ∧ e.keys = kbytes ∧
    e.wordBytes = utf8) ↔ e.triple = (kbytes, posPacked, utf8) := by
  simp only [LruEntry.triple, Prod.mk.injEq]
  constructor
  · rintro ⟨-, hp, -, hk, hw⟩
    exact ⟨hk, hp, hw⟩
  · rintro ⟨hk, hp, hw⟩
    have hkl : e.klen.toNat = kbytes.length := by rw [← hk, e.keys_length h]
    have hwl : e.utf8Len.toNat = utf8.length := by
      have := h.2.2.2
      rw [← hw, LruEntry.wordBytes, List.length_take, Vector.length_toList]
      omega
    exact ⟨hkl, hp, hwl, hk, hw⟩

theorem find_exact_some (idx : ℕ) (h : c.findExact kbytes posPacked utf8 = some idx) :
    ∃ hi : idx < c.entries.length, c.entries[idx].triple = (kbytes, posPacked, utf8) := by
  obtain ⟨hi, hp, -⟩ := List.findIdx?_eq_some_iff_getElem.mp h
  exact ⟨hi, (exact_iff _ _ _ _ (c.valid _ (List.getElem_mem hi))).mp (of_decide_eq_true hp)⟩

theorem find_exact_none (h : c.findExact kbytes posPacked utf8 = none) :
    (kbytes, posPacked, utf8) ∉ c.entries.map LruEntry.triple := by
  intro hmem
  obtain ⟨e, he, htriple⟩ := List.mem_map.mp hmem
  have hno := List.findIdx?_eq_none_iff.mp h e he
  exact of_decide_eq_false hno ((exact_iff _ _ _ _ (c.valid e he)).mpr htriple)

theorem find_exact_absent (h : (kbytes, posPacked, utf8) ∉ c.entries.map LruEntry.triple) :
    c.findExact kbytes posPacked utf8 = none := by
  cases hf : c.findExact kbytes posPacked utf8 with
  | none => rfl
  | some idx =>
    obtain ⟨hi, htriple⟩ := find_exact_some c kbytes utf8 posPacked idx hf
    exact absurd (List.mem_map.mpr ⟨_, List.getElem_mem hi, htriple⟩) h

end Find

def IsVictim (es : List LruEntry) (i : ℕ) : Prop :=
  ∃ e, es[i]? = some e ∧ (∀ f ∈ es, score e ≤ score f) ∧
    ∀ j f, j < i → es[j]? = some f → score e < score f

/-- The scan keeps the first least score of the entries behind it. -/
theorem victim_from_spec (es pre : List LruEntry) (victim : ℕ) (v : LruEntry)
    (hv : pre[victim]? = some v) (hle : ∀ f ∈ pre, score v ≤ score f)
    (hfirst : ∀ j f, j < victim → pre[j]? = some f → score v < score f) :
    IsVictim (pre++es) (victimFrom es pre.length victim (score v)) := by
  induction es generalizing pre victim v with
  | nil =>
    rw [List.append_nil]
    exact ⟨v, hv, hle, hfirst⟩
  | cons e es ih =>
    have hlt : victim < pre.length := (List.getElem?_eq_some_iff.mp hv).choose
    have hsplit : pre++e::es = (pre++[e])++es := by rw [List.append_assoc, List.singleton_append]
    have hlen : pre.length+1 = (pre++[e]).length := by simp
    rw [hsplit, victimFrom, hlen]
    split
    · rename_i hless
      apply ih
      · exact List.getElem?_concat_length
      · intro f hf
        rcases List.mem_append.mp hf with hf | hf
        · exact le_trans (le_of_lt hless) (hle f hf)
        · rw [List.mem_singleton.mp hf]
      · intro j f hj hf
        rw [List.getElem?_append_left hj] at hf
        exact lt_of_lt_of_le hless (hle f (List.mem_of_getElem? hf))
    · rename_i hmore
      apply ih
      · rwa [List.getElem?_append_left hlt]
      · intro f hf
        rcases List.mem_append.mp hf with hf | hf
        · exact hle f hf
        · rw [List.mem_singleton.mp hf]
          exact not_lt.mp hmore
      · intro j f hj hf
        rw [List.getElem?_append_left (lt_trans hj hlt)] at hf
        exact hfirst j f hj hf

theorem evict_victim_spec (c : LruCache) (h : c.entries ≠ []) :
    IsVictim c.entries c.findEvictVictim := by
  unfold findEvictVictim
  cases hc : c.entries with
  | nil => exact absurd hc h
  | cons e es =>
    apply victim_from_spec es [e] 0 e rfl
    · simp
    · intro j f hj
      exact absurd hj (Nat.not_lt_zero j)

section Upsert

variable (c : LruCache) (kbytes utf8 : Bytes) (posPacked tone : UInt8) (nowMs : UInt32)

theorem upsert_rejected (h : ¬ Accepts kbytes utf8) :
    c.upsert kbytes posPacked tone utf8 nowMs = c := dif_neg h

theorem upsert_present (ha : Accepts kbytes utf8)
    (h : (kbytes, posPacked, utf8) ∈ c.entries.map LruEntry.triple) :
    ∃ idx e, c.findExact kbytes posPacked utf8 = some idx ∧ c.entries[idx]? = some e ∧
      e.triple = (kbytes, posPacked, utf8) ∧
      (c.upsert kbytes posPacked tone utf8 nowMs).entries =
        c.entries.set idx (touch e tone nowMs) := by
  cases hf : c.findExact kbytes posPacked utf8 with
  | none => exact absurd h (find_exact_none c kbytes utf8 posPacked hf)
  | some idx =>
    obtain ⟨hi, htriple⟩ := find_exact_some c kbytes utf8 posPacked idx hf
    refine ⟨idx, c.entries[idx], rfl, List.getElem?_eq_getElem hi, htriple, ?_⟩
    have hu : (c.upsert kbytes posPacked tone utf8 nowMs).entries =
        c.entries.modify idx (fun e => touch e tone nowMs) := by
      unfold upsert
      rw [dif_pos (show _ ∧ _ from ha)]
      split
      · rename_i idx' hf'
        rw [hf, Option.some.injEq] at hf'
        rw [hf']
      · rename_i hf'
        rw [hf] at hf'
        cases hf'
    rw [hu, List.modify_eq_set_getElem?, List.getElem?_eq_getElem hi]
    rfl

theorem upsert_absent (ha : Accepts kbytes utf8)
    (h : (kbytes, posPacked, utf8) ∉ c.entries.map LruEntry.triple) :
    (c.entries.length < kLruCap → (c.upsert kbytes posPacked tone utf8 nowMs).entries =
      c.entries++[freshEntry kbytes posPacked tone utf8 nowMs]) ∧
    (c.entries.length = kLruCap → (c.upsert kbytes posPacked tone utf8 nowMs).entries =
      c.entries.set c.findEvictVictim (freshEntry kbytes posPacked tone utf8 nowMs)) := by
  have hf := find_exact_absent c kbytes utf8 posPacked h
  have hu : (c.upsert kbytes posPacked tone utf8 nowMs).entries =
      if c.entries.length < kLruCap then c.entries++[freshEntry kbytes posPacked tone utf8 nowMs]
      else c.entries.set c.findEvictVictim (freshEntry kbytes posPacked tone utf8 nowMs) := by
    unfold upsert
    rw [dif_pos (show _ ∧ _ from ha)]
    split
    · rename_i idx hf'
      rw [hf] at hf'
      cases hf'
    · split <;> rfl
  constructor
  · intro hroom
    rw [hu, if_pos hroom]
  · intro hfull
    rw [hu, if_neg (by omega)]

theorem ok_present (h : c.Ok) (ha : Accepts kbytes utf8)
    (hmem : (kbytes, posPacked, utf8) ∈ c.entries.map LruEntry.triple) :
    (c.upsert kbytes posPacked tone utf8 nowMs).Ok := by
  obtain ⟨idx, e, -, he, htriple, hu⟩ := upsert_present c kbytes utf8 posPacked tone nowMs ha hmem
  obtain ⟨hi, hidx⟩ := List.getElem?_eq_some_iff.mp he
  constructor
  · rw [hu]
    intro f hf
    rcases List.mem_or_eq_of_mem_set hf with hf | rfl
    · exact h.entries f hf
    · exact touch_ok e tone nowMs (h.entries e (List.mem_of_getElem? he))
  · have hsame : (c.entries.map LruEntry.triple).set idx e.triple =
        c.entries.map LruEntry.triple := by
      apply List.ext_getElem?
      intro j
      by_cases hj : idx = j
      · subst hj
        rw [List.getElem?_set_self (by simpa using hi), List.getElem?_map, he, Option.map_some]
      · rw [List.getElem?_set_ne hj]
    rw [hu, List.map_set, touch_triple, hsame]
    exact h.distinct

theorem ok_absent (h : c.Ok) (ha : Accepts kbytes utf8)
    (hmem : (kbytes, posPacked, utf8) ∉ c.entries.map LruEntry.triple) :
    (c.upsert kbytes posPacked tone utf8 nowMs).Ok := by
  obtain ⟨hroom, hfull⟩ := upsert_absent c kbytes utf8 posPacked tone nowMs ha hmem
  have hfresh := fresh_ok kbytes utf8 posPacked tone nowMs ha
  have htriple := fresh_triple kbytes utf8 posPacked tone nowMs ha
  rcases Nat.lt_or_eq_of_le c.fits with hlt | heq
  · constructor
    · rw [hroom hlt]
      intro f hf
      rcases List.mem_append.mp hf with hf | hf
      · exact h.entries f hf
      · exact List.mem_singleton.mp hf ▸ hfresh
    · rw [hroom hlt, List.map_append, List.map_singleton, htriple]
      exact List.Nodup.append h.distinct (List.nodup_singleton _) (List.disjoint_singleton.mpr hmem)
  · constructor
    · rw [hfull heq]
      intro f hf
      rcases List.mem_or_eq_of_mem_set hf with hf | rfl
      · exact h.entries f hf
      · exact hfresh
    · rw [hfull heq, List.map_set, htriple]
      exact List.Nodup.set h.distinct hmem

theorem ok_upsert (h : c.Ok) : (c.upsert kbytes posPacked tone utf8 nowMs).Ok := by
  by_cases ha : Accepts kbytes utf8
  · by_cases hmem : (kbytes, posPacked, utf8) ∈ c.entries.map LruEntry.triple
    · exact ok_present c kbytes utf8 posPacked tone nowMs h ha hmem
    · exact ok_absent c kbytes utf8 posPacked tone nowMs h ha hmem
  · rwa [upsert_rejected c kbytes utf8 posPacked tone nowMs ha]

end Upsert

/-- How a cache came about: images that are read back are those of caches, with
anything behind them. -/
inductive History where
  | start
  | reset (h : History)
  | upsert (h : History) (kbytes : Bytes) (posPacked tone : UInt8) (utf8 : Bytes) (nowMs : UInt32)
  | deserialize (h saved : History) (trailing : Bytes)

def History.cache : History → LruCache
  | .start => empty
  | .reset h => h.cache.reset
  | .upsert h kbytes posPacked tone utf8 nowMs => h.cache.upsert kbytes posPacked tone utf8 nowMs
  | .deserialize h saved trailing => (h.cache.deserialize (saved.cache.image++trailing)).1

theorem ok_empty : Ok empty := ⟨by simp [empty], by simp [empty]⟩

theorem history_ok (h : History) : h.cache.Ok := by
  induction h with
  | start => exact ok_empty
  | reset h ih => exact ok_empty
  | upsert h kbytes posPacked tone utf8 nowMs ih =>
    exact ok_upsert _ kbytes utf8 posPacked tone nowMs ih
  | deserialize h saved trailing ih ihsaved =>
    rw [History.cache, deserialize_image]
    exact ihsaved

/-- In every cache that comes about, at most 128 entries of distinct triples are in
range, used, and zero behind their lengths; an upsert refreshes its triple where it
stands, adds it, or puts it in place of the first entry of least score of a full
cache, and does nothing with arguments out of range. -/
theorem lru_representation (h : History) :
    let c := h.cache
    c.entries.length ≤ 128 ∧
    (∀ e ∈ c.entries, (1 ≤ e.klen.toNat ∧ e.klen.toNat ≤ 8) ∧
      (1 ≤ e.utf8Len.toNat ∧ e.utf8Len.toNat ≤ 24) ∧ 1 ≤ e.useCount.toNat ∧
      (∀ i, ∀ hi : i < 8, e.klen.toNat ≤ i → e.kbytes[i] = 0) ∧
      ∀ i, ∀ hi : i < 24, e.utf8Len.toNat ≤ i → e.utf8[i] = 0) ∧
    (c.entries.map LruEntry.triple).Nodup ∧
    ∀ (kbytes : Bytes) (posPacked tone : UInt8) (utf8 : Bytes) (nowMs : UInt32),
      let c' := c.upsert kbytes posPacked tone utf8 nowMs
      (¬ Accepts kbytes utf8 → c' = c) ∧
      (Accepts kbytes utf8 → (kbytes, posPacked, utf8) ∈ c.entries.map LruEntry.triple →
        ∃ i e, c.entries[i]? = some e ∧ e.triple = (kbytes, posPacked, utf8) ∧
          c'.entries = c.entries.set i { e with
            lastUsedMs := nowMs
            tone := tone
            useCount := UInt16.ofNat (min (e.useCount.toNat+1) 0xFFFF) }) ∧
      (Accepts kbytes utf8 → (kbytes, posPacked, utf8) ∉ c.entries.map LruEntry.triple →
        ∃ e : LruEntry, e.triple = (kbytes, posPacked, utf8) ∧ e.tone = tone ∧
          e.lastUsedMs = nowMs ∧ e.useCount = 1 ∧
          (c.entries.length < 128 → c'.entries = c.entries++[e]) ∧
          (c.entries.length = 128 → ∃ i, IsVictim c.entries i ∧
            c'.entries = c.entries.set i e)) := by
  have hok := history_ok h
  dsimp only
  refine ⟨h.cache.fits, ?_, hok.distinct, ?_⟩
  · intro e he
    have := hok.entries e he
    exact ⟨⟨this.valid.1, this.valid.2.1⟩, ⟨this.valid.2.2.1, this.valid.2.2.2⟩, this.used,
      this.keysTail, this.wordTail⟩
  · intro kbytes posPacked tone utf8 nowMs
    refine ⟨upsert_rejected _ _ _ _ _ _, ?_, ?_⟩
    · intro ha hmem
      obtain ⟨i, e, -, he, htriple, hu⟩ :=
        upsert_present h.cache kbytes utf8 posPacked tone nowMs ha hmem
      refine ⟨i, e, he, htriple, ?_⟩
      rw [hu]
      congr 1
      have hcount : (touch e tone nowMs).useCount =
          UInt16.ofNat (min (e.useCount.toNat+1) 0xFFFF) := by
        rw [← touch_count e tone nowMs, UInt16.ofNat_toNat]
      rw [← hcount]
      rfl
    · intro ha hmem
      obtain ⟨hroom, hfull⟩ := upsert_absent h.cache kbytes utf8 posPacked tone nowMs ha hmem
      refine ⟨freshEntry kbytes posPacked tone utf8 nowMs,
        fresh_triple kbytes utf8 posPacked tone nowMs ha, rfl, rfl, rfl, hroom, ?_⟩
      intro hlen
      refine ⟨h.cache.findEvictVictim, evict_victim_spec _ ?_, hfull hlen⟩
      intro hnil
      rw [hnil] at hlen
      cases hlen

end LruCache

end MokyaLora
