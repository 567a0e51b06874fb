import MokyaLora.ImeReachable
import MokyaLora.LruSerial

/-!
# What loading a persisted cache leaves

A header that does not fit is rejected before the cache is touched, an entry that
does not fit after it was overwritten.
-/

set_option autoImplicit false

namespace MokyaLora.Ime
open Lib.Fields

/-- The magic and the version match, and the entries counted fit. -/
def HeaderOk (buf : Bytes) : Prop :=
  slice buf 0 4 = LruCache.kMagic ∧ load16 buf 4 = 1 ∧ load16 buf 6 ≤ kLruCap ∧
    LruCache.kHeaderSize+LruCache.kEntryBytes*load16 buf 6 ≤ buf.length

def decodedEntries (buf : Bytes) : List LruEntry :=
  (List.range (load16 buf 6)).map
    (fun i => LruCache.decodeEntry buf (LruCache.kHeaderSize+i*LruCache.kEntryBytes))

/-- What the header file promises of `load_lru`: an image that fits is loaded, and
another one empties the cache. -/
structure LoadContract (s : ImeLogic) (buf : Bytes) : Prop where
  accepted : (s.loadLru buf).2 = true ↔ HeaderOk buf ∧ ∀ e ∈ decodedEntries buf, e.Valid
  loaded : (s.loadLru buf).2 = true → (s.loadLru buf).1.lru.entries = decodedEntries buf
  emptied : (s.loadLru buf).2 = false → (s.loadLru buf).1.lru.entries = []

section Load

variable (c : LruCache) (buf : Bytes)

theorem deserialize_rejected (h : ¬ HeaderOk buf) : c.deserialize buf = (c, false) := by
  unfold LruCache.deserialize
  split
  · rfl
  split
  · rfl
  split
  · rfl
  split
  · rfl
  split
  · rfl
  rename_i hmagic hversion hcount hlen
  have hfits := Nat.mul_comm LruCache.kEntryBytes (load16 buf 6)
  exact absurd ⟨not_not.mp hmagic, not_not.mp hversion, not_lt.mp hcount,
    hfits ▸ not_lt.mp hlen⟩ h

theorem deserialize_header (h : HeaderOk buf) :
    ((c.deserialize buf).2 = true ↔ ∀ e ∈ decodedEntries buf, e.Valid) ∧
    (c.deserialize buf).1.entries =
      if (c.deserialize buf).2 then decodedEntries buf else [] := by
  obtain ⟨hmagic, hversion, hcount, hlen⟩ := h
  have hshort : ¬ buf.length < LruCache.kHeaderSize := by omega
  have hroom : ¬ buf.length < LruCache.kHeaderSize+load16 buf 6*LruCache.kEntryBytes := by
    rw [Nat.mul_comm]
    exact not_lt.mpr hlen
  unfold LruCache.deserialize
  rw [if_neg hshort, if_neg (not_not.mpr hmagic), if_neg (not_not.mpr hversion),
    dif_neg (not_lt.mpr hcount), if_neg hroom]
  dsimp only
  split
  · rename_i hvalid
    exact ⟨iff_of_true rfl hvalid, rfl⟩
  · rename_i hinvalid
    exact ⟨iff_of_false Bool.noConfusion hinvalid, rfl⟩

/-- The contract is met when the header fits, and else for an empty cache only. -/
theorem load_contract_iff (s : ImeLogic) (buf : Bytes) :
    LoadContract s buf ↔ HeaderOk buf ∨ s.lru.entries = [] := by
  by_cases h : HeaderOk buf
  · obtain ⟨hvalid, hentries⟩ := deserialize_header s.lru buf h
    refine iff_of_true ⟨?_, fun ht => ?_, fun hf => ?_⟩ (.inl h)
    · rw [and_iff_right h]
      exact hvalid
    · exact hentries.trans (if_pos ht)
    · exact hentries.trans (if_neg (Bool.eq_false_iff.mp hf))
  · have hsame : s.loadLru buf = (s, false) := by
      rw [ImeLogic.loadLru, deserialize_rejected s.lru buf h]
    constructor
    · intro hc
      have hempty := hc.emptied (by rw [hsame])
      rw [hsame] at hempty
      exact .inr hempty
    · intro hc
      have hempty := hc.resolve_left h
      refine ⟨?_, ?_, ?_⟩
      · rw [hsame]
        exact iff_of_false Bool.noConfusion (fun hc => h hc.1)
      · rw [hsame]
        exact Bool.noConfusion
      · rw [hsame]
        exact fun _ => hempty

end Load

def oneWordImage : Bytes :=
  (LruCache.empty.upsert [0x21] 0xFF 1 (utf8 '八') 10).image

/-- An empty buffer is rejected and the word is still there. -/
theorem rejected_keeps :
    let s := ImeLogic.run ⟨none, none, none, false⟩ [.loadLru oneWordImage]
    (s.loadLru []).2 = false ∧ (s.loadLru []).1.lru.entries.map LruEntry.wordBytes = [utf8 '八'] ∧
    ¬ LoadContract s [] := by
  have hkept : ((ImeLogic.run ⟨none, none, none, false⟩ [.loadLru oneWordImage]).loadLru
      []).1.lru.entries.map LruEntry.wordBytes = [utf8 '八'] := by decide +kernel
  refine ⟨by decide +kernel, hkept, fun h => ?_⟩
  rw [h.emptied (by decide +kernel)] at hkept
  cases hkept

end MokyaLora.Ime
