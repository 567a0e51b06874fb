import MokyaLora.LruInvariant

/-!
# The cache in flash

A save erases the slot and programs the image, padded to whole pages, in ascending
order. When the power is lost after some page, the rest of the slot is erased. The
next load reads a window of the largest image.
-/

set_option autoImplicit false

namespace MokyaLora
open Lib.Fields LruCache

def kPageSize : ℕ := 256

def kPaddedSize : ℕ := (kBlobMaxBytes+kPageSize-1)/kPageSize*kPageSize

def mieLruSlotSize : ℕ := 8*1024

inductive FlashOp where
  | erase
  | program (page : ℕ) (data : Bytes)

def FlashOp.apply (slot : Bytes) : FlashOp → Bytes
  | .erase => List.replicate mieLruSlotSize 0xFF
  | .program page data =>
    slot.take (page*kPageSize)++(data++slot.drop (page*kPageSize+data.length))

def flashRangeProgram (data : Bytes) : List FlashOp :=
  (List.range (data.length/kPageSize)).map
    (fun i => .program i (slice data (i*kPageSize) kPageSize))

/-- The operations of a save, `none` where it gives up before them; `scratch` says
whether the buffer could be allocated. -/
def lruPersistSave (c : LruCache) (scratch : Bool) : Option (List FlashOp) :=
  if c.serializedSize = 0 ∨ kBlobMaxBytes < c.serializedSize then none
  else if scratch then
    (c.serialize kBlobMaxBytes).map (fun blob =>
      .erase::flashRangeProgram (blob++List.replicate (kPaddedSize-blob.length) 0xFF))
  else none

def lruPersistLoad (c : LruCache) (slot : Bytes) : LruCache × Bool :=
  c.deserialize (slot.take kBlobMaxBytes)

def tornSlot (old : Bytes) (c : LruCache) (pages : ℕ) : Bytes :=
  (((lruPersistSave c true).getD []).take (pages+1)).foldl FlashOp.apply old

/-- The cut leaves the lengths of the last entry and loses bytes behind them. -/
def TearsLast (c : LruCache) (pages : ℕ) : Prop :=
  0 < pages ∧ pages*kPageSize < c.serializedSize ∧ c.serializedSize ≤ pages*kPageSize+36

section Slot

theorem program_next (done data : Bytes) (k rest : ℕ) (hdone : done.length = k*kPageSize)
    (hdata : data.length = kPageSize) :
    FlashOp.apply (done++List.replicate rest 0xFF) (.program k data) =
      done++(data++List.replicate (rest-kPageSize) 0xFF) := by
  have hskip : (done++List.replicate rest 0xFF).drop (k*kPageSize+kPageSize) =
      List.replicate (rest-kPageSize) (0xFF : UInt8) := by
    rw [← List.drop_drop, ← hdone, List.drop_left, List.drop_replicate]
  rw [FlashOp.apply, hdata, hskip, ← hdone, List.take_left]

theorem programmed_pages (data : Bytes) (size : ℕ) (k : ℕ) (hk : k*kPageSize ≤ data.length) :
    ((List.range k).map (fun i => FlashOp.program i (slice data (i*kPageSize) kPageSize))).foldl
        FlashOp.apply (List.replicate size 0xFF) =
      data.take (k*kPageSize)++List.replicate (size-k*kPageSize) 0xFF := by
  induction k with
  | zero => simp
  | succ k ih =>
    rw [Nat.add_mul, Nat.one_mul] at hk ⊢
    have hdone : (data.take (k*kPageSize)).length = k*kPageSize := by
      rw [List.length_take]
      omega
    have hpage : (slice data (k*kPageSize) kPageSize).length = kPageSize := by
      rw [slice, List.length_take, List.length_drop]
      omega
    rw [List.range_succ, List.map_append, List.foldl_append, ih (by omega), List.map_singleton,
      List.foldl_cons, List.foldl_nil, program_next _ _ _ _ hdone hpage, List.take_add,
      List.append_assoc, Nat.sub_sub, slice]

theorem padded_window (b : Bytes) (m w p s : ℕ) (x : UInt8) (hw : b.length ≤ w) (hwp : w ≤ p)
    (hps : p ≤ s) (hm : m ≤ p) :
    ((b++List.replicate (p-b.length) x).take m++List.replicate (s-m) x).take w =
      b.take m++List.replicate (w-min m b.length) x := by
  rcases Nat.le_total m b.length with hle | hle
  · have hlen : (b.take m).length = m := by
      rw [List.length_take]
      exact Nat.min_eq_left hle
    rw [List.take_append_of_le_length hle, List.take_append, hlen, List.take_replicate,
      List.take_of_length_le (by omega), Nat.min_eq_left hle, Nat.min_eq_left (by omega)]
  · have hall : (b++List.replicate (p-b.length) x).take m++List.replicate (s-m) x =
        b++List.replicate (s-b.length) x := by
      rw [List.take_append, List.take_of_length_le hle, List.take_replicate, List.append_assoc,
        List.replicate_append_replicate]
      congr 2
      omega
    rw [hall, List.take_append, List.take_of_length_le hw, List.take_replicate,
      List.take_of_length_le hle, Nat.min_eq_right hle, Nat.min_eq_left (by omega)]

theorem save_ops (c : LruCache) : lruPersistSave c true = some (.erase::flashRangeProgram
    (c.image++List.replicate (kPaddedSize-c.image.length) 0xFF)) := by
  have hle := serialized_size_le c
  have hno : ¬ (c.serializedSize = 0 ∨ kBlobMaxBytes < c.serializedSize) := by
    rw [serializedSize, kHeaderSize] at hle ⊢
    omega
  rw [lruPersistSave, if_neg hno, if_pos rfl, serialize, if_neg (not_lt.mpr hle), Option.map_some]

theorem scratch_length (c : LruCache) :
    (c.image++List.replicate (kPaddedSize-c.image.length) 0xFF).length = kPaddedSize := by
  have hle : c.image.length ≤ kPaddedSize :=
    le_trans (le_of_eq_of_le (image_length c) (serialized_size_le c)) (by decide)
  rw [List.length_append, List.length_replicate]
  exact Nat.add_sub_of_le hle

theorem torn_window (old : Bytes) (c : LruCache) (pages : ℕ) (hp : pages ≤ 25) :
    (tornSlot old c pages).take kBlobMaxBytes = c.image.take (pages*kPageSize)++
      List.replicate (kBlobMaxBytes-min (pages*kPageSize) c.image.length) 0xFF := by
  have hle : c.image.length ≤ kBlobMaxBytes := le_of_eq_of_le (image_length c) (serialized_size_le c)
  have hcut : pages*kPageSize ≤ kPaddedSize := Nat.mul_le_mul_right kPageSize hp
  have hpages : min pages (kPaddedSize/kPageSize) = pages := Nat.min_eq_left hp
  rw [tornSlot, save_ops, Option.getD_some, List.take_succ_cons, List.foldl_cons, flashRangeProgram,
    scratch_length, ← List.map_take, List.take_range, hpages, FlashOp.apply,
    programmed_pages _ _ _ (by rwa [scratch_length])]
  exact padded_window c.image _ _ _ _ _ hle (by decide) (by decide) hcut

theorem torn_complete (old : Bytes) (c : LruCache) (pages : ℕ) (hp : 25 ≤ pages) :
    tornSlot old c pages = tornSlot old c 25 := by
  have hlen : ((lruPersistSave c true).getD []).length = 26 := by
    rw [save_ops, Option.getD_some, List.length_cons, flashRangeProgram, List.length_map,
      List.length_range, scratch_length]
    rfl
  rw [tornSlot, tornSlot, List.take_of_length_le (by omega), List.take_of_length_le (by omega)]

end Slot

section Load

variable (c : LruCache) (m r : ℕ)

theorem front_byte (b : Bytes) (p : ℕ) (hp : p < m) (hb : p < b.length) :
    (b.take m++List.replicate r 0xFF).getD p 0 = b.getD p 0 := by
  have hlt : p < (b.take m).length := by
    rw [List.length_take]
    exact lt_min hp hb
  rw [List.getD_eq_getElem?_getD, List.getD_eq_getElem?_getD, List.getElem?_append_left hlt,
    List.getElem?_take_of_lt hp]

theorem back_byte (b : Bytes) (p : ℕ) (hm : m ≤ b.length) (hp : m ≤ p) (hr : p < m+r) :
    (b.take m++List.replicate r 0xFF).getD p 0 = 0xFF := by
  have hlen : (b.take m).length = m := by
    rw [List.length_take]
    exact Nat.min_eq_left hm
  rw [List.getD_eq_getElem?_getD, List.getElem?_append_right (hlen.trans_le hp), hlen,
    List.getElem?_replicate, if_pos (by omega), Option.getD_some]

/-- Where the lengths of an entry are in front of the cut, its torn bytes are in
range; behind the cut there are no lengths. -/
theorem torn_entry (i : ℕ) (hi : i < c.entries.length)
    (hfit : kHeaderSize+(i+1)*kEntryBytes ≤ m+r) (hm : m ≤ c.image.length) :
    (decodeEntry (c.image.take m++List.replicate r 0xFF) (kHeaderSize+i*kEntryBytes)).Valid ↔
      kHeaderSize+i*kEntryBytes+11 < m := by
  have hlen := image_length c
  have hentry := image_entry c [] i hi
  rw [List.append_nil] at hentry
  have hklen : c.image.getD (kHeaderSize+i*kEntryBytes+8) 0 = c.entries[i].klen := by rw [← hentry]; rfl
  have hwlen : c.image.getD (kHeaderSize+i*kEntryBytes+11) 0 = c.entries[i].utf8Len := by
    rw [← hentry]
    rfl
  have hlast : (i+1)*kEntryBytes ≤ c.entries.length*kEntryBytes := Nat.mul_le_mul_right _ hi
  rw [serializedSize, kEntryBytes, kHeaderSize] at hlen
  rw [kEntryBytes] at hlast
  rw [kHeaderSize, kEntryBytes] at *
  constructor
  · intro hvalid
    by_contra hback
    have hFF : (decodeEntry (c.image.take m++List.replicate r 0xFF) (8+i*48)).utf8Len = 0xFF :=
      back_byte m r c.image _ hm (not_lt.mp hback) (by omega)
    have hle := hvalid.2.2.2
    rw [hFF] at hle
    exact absurd hle (by decide)
  · intro hfront
    have hk : (decodeEntry (c.image.take m++List.replicate r 0xFF) (8+i*48)).klen =
        c.entries[i].klen :=
      (front_byte m r c.image _ (by omega) (by omega)).trans hklen
    have hw : (decodeEntry (c.image.take m++List.replicate r 0xFF) (8+i*48)).utf8Len =
        c.entries[i].utf8Len :=
      (front_byte m r c.image _ hfront (by omega)).trans hwlen
    rw [LruEntry.Valid, hk, hw]
    exact c.valid _ (List.getElem_mem hi)

theorem torn_load (h8 : kHeaderSize ≤ m) (hm : m < c.image.length) (hr : c.image.length ≤ m+r)
    (prior : LruCache) :
    (c.image.length ≤ m+36 →
      ∃ c', prior.deserialize (c.image.take m++List.replicate r 0xFF) = (c', true)) ∧
    (m+36 < c.image.length →
      prior.deserialize (c.image.take m++List.replicate r 0xFF) = (empty, false)) := by
  have hlen := image_length c
  rw [serializedSize] at hlen
  have hsplit : c.image.take m++List.replicate r 0xFF = c.header++
      ((c.entries.flatMap encodeEntry).take (m-kHeaderSize)++List.replicate r 0xFF) := by
    rw [image, List.take_append, header_length, List.take_of_length_le, List.append_assoc]
    exact h8
  have hw : (c.image.take m++List.replicate r (0xFF : UInt8)).length = m+r := by
    rw [List.length_append, List.length_take, List.length_replicate, Nat.min_eq_left (le_of_lt hm)]
  obtain ⟨hmagic, hver, hcnt⟩ := header_fields c
    ((c.entries.flatMap encodeEntry).take (m-kHeaderSize)++List.replicate r 0xFF)
  rw [← hsplit] at hmagic hver hcnt
  have hentry : ∀ i < c.entries.length,
    (decodeEntry (c.image.take m++List.replicate r 0xFF) (kHeaderSize+i*kEntryBytes)).Valid ↔
      kHeaderSize+i*kEntryBytes+11 < m := by
    intro i hi
    have : (i+1)*kEntryBytes ≤ c.entries.length*kEntryBytes := Nat.mul_le_mul_right _ hi
    exact torn_entry c m r i hi (by omega) (le_of_lt hm)
  have hcases := deserialize_eq prior (c.image.take m++List.replicate r 0xFF) (by omega) hmagic hver
    (hcnt.trans_le c.fits) (by rw [hcnt]; omega)
  rw [hcnt] at hcases
  rw [kHeaderSize, kEntryBytes] at *
  constructor
  · intro hkeeps
    rcases hcases with ⟨-, h⟩ | ⟨⟨i, hi, hbad⟩, -⟩
    · exact h
    · exact absurd ((hentry i hi).mpr (by omega)) hbad
  · intro hloses
    rcases hcases with ⟨hall, -⟩ | ⟨-, h⟩
    · have hlast := (hentry (c.entries.length-1) (by omega)).mp (hall _ (by omega))
      omega
    · exact h

theorem complete_load (old : Bytes) (pages : ℕ) (h : c.image.length ≤ pages*kPageSize)
    (prior : LruCache) : lruPersistLoad prior (tornSlot old c pages) = (c, true) := by
  have hall : ∀ k ≤ 25, c.image.length ≤ k*kPageSize →
      lruPersistLoad prior (tornSlot old c k) = (c, true) := by
    intro k hk hle
    rw [lruPersistLoad, torn_window old c k hk, List.take_of_length_le hle]
    exact deserialize_image c prior _
  rcases Nat.le_total pages 25 with hp | hp
  · exact hall pages hp h
  · rw [torn_complete old c pages hp]
    apply hall 25 (le_refl 25)
    exact le_trans (le_of_eq_of_le (image_length c) (serialized_size_le c)) (by decide)

theorem erased_load (old : Bytes) : lruPersistLoad .empty (tornSlot old c 0) = (.empty, false) := by
  have hlen : ¬ kBlobMaxBytes < kHeaderSize := by decide
  have hmagic : slice (List.replicate kBlobMaxBytes (0xFF : UInt8)) 0 4 ≠ kMagic := by decide
  rw [lruPersistLoad, torn_window old c 0 (Nat.zero_le _), Nat.zero_mul, List.take_zero,
    List.nil_append, Nat.zero_min, Nat.sub_zero, deserialize, List.length_replicate, if_neg hlen,
    if_pos hmagic]

theorem erased_rest (k : ℕ) (hk : k ≤ c.image.length) (hfit : c.image.length ≤ kBlobMaxBytes)
    (h : ∀ b ∈ c.image.drop k, b = 0xFF) :
    c.image.take k++List.replicate (kBlobMaxBytes-k) 0xFF =
      c.image++List.replicate (kBlobMaxBytes-c.image.length) 0xFF := by
  have hrest : c.image.drop k = List.replicate (c.image.length-k) 0xFF := by
    rw [← List.length_drop]
    exact List.eq_replicate_of_mem h
  have hsplit := (List.take_append_drop k c.image).symm
  rw [hrest] at hsplit
  have hpad := congrArg (fun l => l++List.replicate (kBlobMaxBytes-c.image.length) 0xFF) hsplit
  refine Eq.trans ?_ hpad.symm
  rw [List.append_assoc, List.replicate_append_replicate]
  congr 2
  omega

/-- Where the cut falls into the image, what is read back is an image in front of
erased bytes. -/
theorem cut_load (old : Bytes) (pages : ℕ) (hpos : 0 < pages)
    (hcut : pages*kPageSize < c.image.length) :
    (c.image.length ≤ pages*kPageSize+36 →
      ∃ c', lruPersistLoad .empty (tornSlot old c pages) = (c', true) ∧
        (c' = c ↔ ∀ b ∈ c.image.drop (pages*kPageSize), b = 0xFF)) ∧
    (pages*kPageSize+36 < c.image.length →
      lruPersistLoad .empty (tornSlot old c pages) = (.empty, false)) := by
  have hle : c.image.length ≤ kBlobMaxBytes := le_of_eq_of_le (image_length c) (serialized_size_le c)
  have hp : pages ≤ 25 := by
    have hsize : kBlobMaxBytes = 6152 := rfl
    rw [kPageSize] at hcut
    omega
  have hpage : kHeaderSize ≤ pages*kPageSize := by
    rw [kHeaderSize, kPageSize]
    omega
  have hmin : min (pages*kPageSize) c.image.length = pages*kPageSize :=
    Nat.min_eq_left (le_of_lt hcut)
  rw [lruPersistLoad, torn_window old c pages hp, hmin]
  obtain ⟨hkeeps, hloses⟩ := torn_load c (pages*kPageSize) (kBlobMaxBytes-pages*kPageSize) hpage
    hcut (by omega) .empty
  refine ⟨?_, hloses⟩
  intro hlast
  obtain ⟨c', hc'⟩ := hkeeps hlast
  refine ⟨c', hc', ?_, ?_⟩
  · rintro rfl
    obtain ⟨tail, htail⟩ := deserialize_canonical _ _ _ hc'
    have hdrop := congrArg (List.drop (pages*kPageSize)) htail
    rw [List.drop_append_of_le_length (le_of_lt hcut), List.drop_left'] at hdrop
    · intro b hb
      have hmem := List.mem_append_left tail hb
      rw [hdrop] at hmem
      exact List.eq_of_mem_replicate hmem
    · rw [List.length_take]
      exact hmin
  · intro hFF
    have hwhole := erased_rest c (pages*kPageSize) (le_of_lt hcut) hle hFF
    rw [hwhole, deserialize_image, Prod.mk.injEq] at hc'
    exact hc'.1.symm

end Load

/-- After a save that is cut after any number of pages, the load restores the saved
cache or rejects the slot and leaves the cache empty, exactly if the cut does not
leave the lengths of the last entry without the bytes behind them, or these bytes
were erased ones anyway. -/
theorem torn_save (old : Bytes) (c : LruCache) (pages : ℕ) :
    (lruPersistLoad .empty (tornSlot old c pages) = (c, true) ∨
      lruPersistLoad .empty (tornSlot old c pages) = (.empty, false)) ↔
    ¬ TearsLast c pages ∨ ∀ b ∈ c.image.drop (pages*kPageSize), b = 0xFF := by
  rw [TearsLast, ← image_length]
  rcases Nat.eq_zero_or_pos pages with rfl | hpos
  · exact iff_of_true (.inr (erased_load c old)) (.inl (fun h => Nat.lt_irrefl 0 h.1))
  by_cases hcut : pages*kPageSize < c.image.length
  · obtain ⟨hkeeps, hloses⟩ := cut_load c old pages hpos hcut
    by_cases hlast : c.image.length ≤ pages*kPageSize+36
    · obtain ⟨c', hc', hsame⟩ := hkeeps hlast
      have htears : 0 < pages ∧ pages*kPageSize < c.image.length ∧
          c.image.length ≤ pages*kPageSize+36 := ⟨hpos, hcut, hlast⟩
      rw [hc', ← hsame, Prod.mk.injEq, Prod.mk.injEq]
      simp [htears]
    · have hno : ¬ (0 < pages ∧ pages*kPageSize < c.image.length ∧
          c.image.length ≤ pages*kPageSize+36) := fun h => hlast h.2.2
      exact iff_of_true (.inr (hloses (not_le.mp hlast))) (.inl hno)
  · exact iff_of_true (.inl (complete_load c old pages (not_lt.mp hcut) .empty))
      (.inl (fun h => hcut h.2.1))

def elevenWords : History :=
  (List.range 11).foldl (fun h i =>
    .upsert h [0x21] (UInt8.ofNat i) 0 (List.replicate 24 0x41) 1000) .start

def oldSlot : Bytes := List.replicate mieLruSlotSize 0x00

/-- Cut after the second page, the save is accepted with a last word of which half is
overwritten. -/
theorem torn_accepted :
    (lruPersistLoad .empty (tornSlot oldSlot elevenWords.cache 2)).2 = true ∧
    ∃ e ∈ (lruPersistLoad .empty (tornSlot oldSlot elevenWords.cache 2)).1.entries,
      e.wordBytes = List.replicate 12 0x41++List.replicate 12 0xFF ∧
      e ∉ elevenWords.cache.entries := by
  rw [lruPersistLoad, torn_window oldSlot _ 2 (by decide)]
  decide +kernel

end MokyaLora
