import MokyaLora.LruCache

/-!
# The persisted image of the cache

The image is a header with the count and the entries as they lie in memory. It is
read back from the front of a longer buffer, whatever follows.
-/

set_option autoImplicit false

namespace MokyaLora
open Lib.Fields

namespace LruCache

def encodeEntry (e : LruEntry) : Bytes :=
  e.kbytes.toList++([e.klen]++([e.posPacked]++([e.tone]++([e.utf8Len]++(e.utf8.toList++
    (le32 e.lastUsedMs.toNat++(le16 e.useCount.toNat++(le16 e.reserved0.toNat++
      le32 e.reserved1.toNat))))))))

def kSerialVersion : ℕ := 1

def header (c : LruCache) : Bytes := kMagic++(le16 kSerialVersion++le16 c.entries.length)

def image (c : LruCache) : Bytes := c.header++c.entries.flatMap encodeEntry

def serializedSize (c : LruCache) : ℕ := kHeaderSize+c.entries.length*kEntryBytes

/-- `none` where the buffer is too small. -/
def serialize (c : LruCache) (cap : ℕ) : Option Bytes :=
  if cap < c.serializedSize then none else some c.image

def reset (_ : LruCache) : LruCache := empty

theorem encode_entry_length (e : LruEntry) : (encodeEntry e).length = kEntryBytes := by
  simp [encodeEntry, kEntryBytes]

theorem header_length (c : LruCache) : c.header.length = kHeaderSize := rfl

theorem entries_length (es : List LruEntry) :
    (es.flatMap encodeEntry).length = es.length*kEntryBytes := by
  rw [List.flatMap_def, flatten_const _ kEntryBytes, List.length_map, Nat.mul_comm]
  intro l hl
  obtain ⟨e, -, rfl⟩ := List.mem_map.mp hl
  exact encode_entry_length e

theorem image_length (c : LruCache) : c.image.length = c.serializedSize := by
  rw [image, List.length_append, header_length, entries_length, serializedSize]

theorem filled_toList (n : ℕ) (v : Vector UInt8 n) : filled n v.toList = v := by
  ext i hi
  simp [filled, List.getD_eq_getElem?_getD]

theorem byte_eq {b : Bytes} {off : ℕ} {x : UInt8} (h : At b off [x]) : b.getD off 0 = x :=
  UInt8.toNat_inj.mp h.byte

theorem decode_entry {b : Bytes} {off : ℕ} {e : LruEntry} (h : At b off (encodeEntry e)) :
    decodeEntry b off = e := by
  rw [encodeEntry, at_append, at_append, at_append, at_append, at_append, at_append, at_append,
    at_append, at_append] at h
  obtain ⟨hk, hl, hp, ht, hu, hw, hm, hc, hr, hs⟩ := h
  simp only [Vector.length_toList, List.length_singleton, le32_length, le16_length,
    Nat.add_assoc, Nat.reduceAdd] at hl hp ht hu hw hm hc hr hs
  have hkb : slice b off 8 = e.kbytes.toList := by
    simpa only [Vector.length_toList] using hk.slice_eq
  have hwb : slice b (off+12) 24 = e.utf8.toList := by
    simpa only [Vector.length_toList] using hw.slice_eq
  rw [decodeEntry, hkb, filled_toList, byte_eq hl, byte_eq hp, byte_eq ht, byte_eq hu, hwb,
    filled_toList, load32_at e.lastUsedMs.toNat_lt hm, load16_at e.useCount.toNat_lt hc,
    load16_at e.reserved0.toNat_lt hr, load32_at e.reserved1.toNat_lt hs]
  simp

theorem header_fields (c : LruCache) (rest : Bytes) : slice (c.header++rest) 0 4 = kMagic ∧
    load16 (c.header++rest) 4 = 1 ∧ load16 (c.header++rest) 6 = c.entries.length := by
  have hcount := c.fits
  have hat : At (c.header++rest) 0 c.header := List.prefix_append _ _
  rw [header, at_append, at_append] at hat
  obtain ⟨hmagic, hver, hcnt⟩ := hat
  exact ⟨hmagic.slice_eq, load16_at (by decide) hver,
    load16_at (lt_of_le_of_lt hcount (by decide)) hcnt⟩

theorem image_entry (c : LruCache) (rest : Bytes) (i : ℕ) (hi : i < c.entries.length) :
    decodeEntry (c.image++rest) (kHeaderSize+i*kEntryBytes) = c.entries[i] := by
  have hat : At (c.image++rest) 0 (c.header++c.entries.flatMap encodeEntry) :=
    List.prefix_append _ _
  rw [at_append] at hat
  apply decode_entry
  have hentry := at_array encodeEntry kEntryBytes encode_entry_length hat.2 i hi
  rwa [Nat.mul_comm, Nat.zero_add] at hentry

theorem deserialize_image (c prior : LruCache) (trailing : Bytes) :
    prior.deserialize (c.image++trailing) = (c, true) := by
  have hcount := c.fits
  have hlen : (c.image++trailing).length = c.serializedSize+trailing.length := by
    rw [List.length_append, image_length]
  obtain ⟨hm, hv, hn⟩ := header_fields c (c.entries.flatMap encodeEntry++trailing)
  rw [← List.append_assoc] at hm hv hn
  have hes : (List.range c.entries.length).map
      (fun i => decodeEntry (c.image++trailing) (kHeaderSize+i*kEntryBytes)) = c.entries := by
    apply List.ext_getElem
    · rw [List.length_map, List.length_range]
    · intro i hi hi'
      rw [List.getElem_map, List.getElem_range]
      exact image_entry c trailing i hi'
  rw [image] at hlen hes ⊢
  unfold deserialize
  rw [if_neg (by rw [hlen, serializedSize]; omega), if_neg (not_not.mpr hm),
    if_neg (not_not.mpr hv), dif_neg (by omega),
    if_neg (by rw [hlen, hn, serializedSize]; omega)]
  simp only [hn, hes]
  rw [dif_pos c.valid]

theorem filled_slice (b : Bytes) (i n : ℕ) (h : i+n ≤ b.length) :
    (filled n (slice b i n)).toList = slice b i n := by
  have hlen : (slice b i n).length = n := by
    rw [slice, List.length_take, List.length_drop]
    omega
  apply List.ext_getElem
  · rw [Vector.length_toList, hlen]
  · intro j hj hj'
    simp [filled, List.getD_eq_getElem?_getD, hj']

theorem decode_at (b : Bytes) (off : ℕ) (h : off+kEntryBytes ≤ b.length) :
    At b off (encodeEntry (decodeEntry b off)) := by
  rw [kEntryBytes] at h
  rw [encodeEntry, at_append, at_append, at_append, at_append, at_append, at_append, at_append,
    at_append, at_append]
  simp only [decodeEntry, Vector.length_toList, List.length_singleton, le32_length, le16_length,
    Nat.add_assoc, Nat.reduceAdd, UInt32.toNat_ofNat', UInt16.toNat_ofNat']
  rw [filled_slice b off 8 (by omega), filled_slice b (off+12) 24 (by omega),
    Nat.mod_eq_of_lt (load32_lt b _), Nat.mod_eq_of_lt (load16_lt b _),
    Nat.mod_eq_of_lt (load16_lt b _), Nat.mod_eq_of_lt (load32_lt b _)]
  exact ⟨at_slice _ _ _, at_get _ _ (by omega), at_get _ _ (by omega), at_get _ _ (by omega),
    at_get _ _ (by omega), at_slice _ _ _, at_load32 _ _ (by omega), at_load16 _ _ (by omega),
    at_load16 _ _ (by omega), at_load32 _ _ (by omega)⟩

/-- A buffer is accepted when its header is, it is long enough, and its entries are
in range. -/
theorem deserialize_eq (prior : LruCache) (b : Bytes) (hlen : kHeaderSize ≤ b.length)
    (hm : slice b 0 4 = kMagic) (hv : load16 b 4 = 1) (hn : load16 b 6 ≤ kLruCap)
    (hfit : kHeaderSize+load16 b 6*kEntryBytes ≤ b.length) :
    (∀ i < load16 b 6, (decodeEntry b (kHeaderSize+i*kEntryBytes)).Valid) ∧
      (∃ c, prior.deserialize b = (c, true)) ∨
    (∃ i < load16 b 6, ¬ (decodeEntry b (kHeaderSize+i*kEntryBytes)).Valid) ∧
      prior.deserialize b = (empty, false) := by
  unfold deserialize
  rw [if_neg (not_lt.mpr hlen), if_neg (not_not.mpr hm), if_neg (not_not.mpr hv),
    dif_neg (not_lt.mpr hn), if_neg (not_lt.mpr hfit)]
  dsimp only
  split
  · rename_i hvalid
    refine .inl ⟨fun i hi => hvalid _ ?_, _, rfl⟩
    exact List.mem_map.mpr ⟨i, List.mem_range.mpr hi, rfl⟩
  · rename_i hinvalid
    refine .inr ⟨?_, rfl⟩
    by_contra hall
    apply hinvalid
    intro e he
    obtain ⟨i, hi, rfl⟩ := List.mem_map.mp he
    by_contra hbad
    exact hall ⟨i, List.mem_range.mp hi, hbad⟩

/-- An accepted buffer starts with the image of the cache that it is read as. -/
theorem deserialize_canonical (prior c : LruCache) (b : Bytes)
    (h : prior.deserialize b = (c, true)) : c.image <+: b := by
  unfold deserialize at h
  split at h
  · cases h
  rename_i hlen
  split at h
  · cases h
  rename_i hm
  split at h
  · cases h
  rename_i hv
  split at h
  · cases h
  rename_i hn
  split at h
  · cases h
  rename_i hfit
  dsimp only at h
  split at h
  · rename_i hvalid
    rw [Prod.mk.injEq] at h
    have hes : c.entries = (List.range (load16 b 6)).map
        (fun i => decodeEntry b (kHeaderSize+i*kEntryBytes)) := by
      rw [← h.1]
    have hcount : c.entries.length = load16 b 6 := by
      rw [hes, List.length_map, List.length_range]
    have hmagic : At b 0 kMagic := not_not.mp hm ▸ at_slice b 0 4
    have hver : At b 4 (le16 kSerialVersion) := by
      have h4 := at_load16 b 4 (by rw [kHeaderSize] at hlen; omega)
      rwa [not_not.mp hv] at h4
    have hcnt : At b 6 (le16 c.entries.length) :=
      hcount ▸ at_load16 b 6 (by rw [kHeaderSize] at hlen; omega)
    have hentries : At b 8 (c.entries.flatMap encodeEntry) := by
      rw [hes]
      apply at_flatMap encodeEntry kEntryBytes encode_entry_length b 8
      intro i hi
      apply decode_at
      have : (i+1)*kEntryBytes ≤ load16 b 6*kEntryBytes := Nat.mul_le_mul_right _ hi
      rw [kHeaderSize] at hfit
      rw [Nat.add_mul, Nat.one_mul] at this
      omega
    have hat : At b 0 c.image := by
      rw [image, at_append, header, at_append, at_append]
      exact ⟨⟨hmagic, hver, hcnt⟩, hentries⟩
    exact hat
  · cases h

def kBlobMaxBytes : ℕ := 8+kLruCap*48

theorem serialized_size_le (c : LruCache) : c.serializedSize ≤ kBlobMaxBytes := by
  have := c.fits
  simp only [serializedSize, kBlobMaxBytes, kHeaderSize, kEntryBytes]
  omega

end LruCache

inductive LruCall where
  | reset
  | upsert (kbytes : Bytes) (posPacked tone : UInt8) (utf8 : Bytes) (nowMs : UInt32)
  | lookup (userKeys : Bytes) (hints : Option Bytes) (maxResults : ℕ)
  | serialize (cap : ℕ)
  | deserialize (buf : Bytes)

inductive LruReply where
  | done
  | found (hits : List (Candidate × ℕ))
  | written (bytes : Option Bytes)
  | accepted (ok : Bool)
  deriving DecidableEq

namespace LruCache

def call (c : LruCache) : LruCall → LruCache × LruReply
  | .reset => (c.reset, .done)
  | .upsert kbytes posPacked tone utf8 nowMs => (c.upsert kbytes posPacked tone utf8 nowMs, .done)
  | .lookup userKeys hints maxResults => (c, .found (c.lookup userKeys hints maxResults))
  | .serialize cap => (c, .written (c.serialize cap))
  | .deserialize buf => ((c.deserialize buf).1, .accepted (c.deserialize buf).2)

end LruCache

end MokyaLora
