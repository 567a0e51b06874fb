import MokyaLora.LruSerial

/-!
# The cache as an array with a count

The object holds 128 entries, used or not. Slots behind the count keep what was
in them, and the cache is what stands in front of it: the array does what the
cache does, call for call.
-/

set_option autoImplicit false

namespace MokyaLora
open Lib.Fields

structure LruArray where
  entries : List LruEntry
  count : ℕ
  size : entries.length = kLruCap
  fits : count ≤ kLruCap

def zeroEntry : LruEntry :=
  ⟨LruCache.filled 8 [], 0, 0, 0, 0, LruCache.filled 24 [], 0, 0, 0, 0⟩

namespace LruArray
open LruCache

variable (m : LruArray)

def used : List LruEntry := m.entries.take m.count

def cleared : LruArray :=
  ⟨List.replicate kLruCap zeroEntry, 0, List.length_replicate, Nat.zero_le _⟩

def reset (_ : LruArray) : LruArray := cleared

def findExact (kbytes : Bytes) (posPacked : UInt8) (utf8 : Bytes) : Option ℕ :=
  m.used.findIdx? (fun e => decide (e.klen.toNat = kbytes.length ∧ e.posPacked = posPacked ∧
    e.utf8Len.toNat = utf8.length ∧ e.keys = kbytes ∧ e.wordBytes = utf8))

/-- Slot 0 is read whatever the count. -/
def findEvictVictim : ℕ :=
  victimFrom (m.used.drop 1) 1 0 (score (m.entries.getD 0 zeroEntry))

def setEntry (slot : ℕ) (e : LruEntry) : LruArray :=
  ⟨m.entries.set slot e, m.count, by rw [List.length_set]; exact m.size, m.fits⟩

def upsert (kbytes : Bytes) (posPacked tone : UInt8) (utf8 : Bytes) (nowMs : UInt32) : LruArray :=
  if (1 ≤ kbytes.length ∧ kbytes.length ≤ 8) ∧ 1 ≤ utf8.length ∧ utf8.length ≤ 24 then
    match m.findExact kbytes posPacked utf8 with
    | some idx => m.setEntry idx (touch (m.entries.getD idx zeroEntry) tone nowMs)
    | none =>
      if hc : m.count < kLruCap then
        { m.setEntry m.count (freshEntry kbytes posPacked tone utf8 nowMs) with
          count := m.count+1
          fits := hc }
      else m.setEntry m.findEvictVictim (freshEntry kbytes posPacked tone utf8 nowMs)
  else m

def lookup (userKeys : Bytes) (hints : Option Bytes) (maxResults : ℕ) : List (Candidate × ℕ) :=
  (dedupMatches maxResults
    (sortMatches (m.used.filter (fun e => matchesKeys e userKeys hints)))).map emit

def serializedSize : ℕ := kHeaderSize+m.count*kEntryBytes

def serialize (cap : ℕ) : Option Bytes :=
  if cap < m.serializedSize then none
  else some (kMagic++(le16 kSerialVersion++le16 m.count)++m.used.flatMap encodeEntry)

def copied (n : ℕ) (buf : Bytes) : List LruEntry :=
  (List.range n).map (fun i => decodeEntry buf (kHeaderSize+i*kEntryBytes))++
    List.replicate (kLruCap-n) zeroEntry

theorem copied_size (n : ℕ) (buf : Bytes) (h : ¬ kLruCap < n) : (copied n buf).length = kLruCap := by
  rw [copied, List.length_append, List.length_map, List.length_range, List.length_replicate]
  omega

def deserialize (buf : Bytes) : LruArray × Bool :=
  if buf.length < kHeaderSize then (m, false)
  else if slice buf 0 4 ≠ kMagic then (m, false)
  else if load16 buf 4 ≠ kSerialVersion then (m, false)
  else if hc : kLruCap < load16 buf 6 then (m, false)
  else if buf.length < kHeaderSize+load16 buf 6*kEntryBytes then (m, false)
  else
    let read : LruArray := ⟨copied (load16 buf 6) buf, load16 buf 6, copied_size _ buf hc,
      not_lt.mp hc⟩
    if ∀ e ∈ read.used, e.Valid then (read, true) else (cleared, false)

def call : LruCall → LruArray × LruReply
  | .reset => (m.reset, .done)
  | .upsert kbytes posPacked tone utf8 nowMs => (m.upsert kbytes posPacked tone utf8 nowMs, .done)
  | .lookup userKeys hints maxResults => (m, .found (m.lookup userKeys hints maxResults))
  | .serialize cap => (m, .written (m.serialize cap))
  | .deserialize buf => ((m.deserialize buf).1, .accepted (m.deserialize buf).2)

def run (calls : List LruCall) : LruArray := calls.foldl (fun m a => (m.call a).1) cleared

end LruArray

def LruArray.behaviour : LruArray → List LruCall → List (ℕ × LruReply)
  | _, [] => []
  | m, a::as => ((m.call a).1.count, (m.call a).2)::LruArray.behaviour (m.call a).1 as

/-- The entries in front of the count are those of the cache. -/
def Holds (m : LruArray) (c : LruCache) : Prop := m.used = c.entries

section Holds

variable {m : LruArray} {c : LruCache}

theorem holds_cleared : Holds LruArray.cleared .empty := rfl

theorem used_length (m : LruArray) : m.used.length = m.count := by
  rw [LruArray.used, List.length_take, m.size]
  exact Nat.min_eq_left m.fits

theorem holds_count (h : Holds m c) : m.count = c.entries.length := by
  rw [← used_length, h]

theorem find_exact_holds (h : Holds m c) (kbytes : Bytes) (posPacked : UInt8) (utf8 : Bytes) :
    m.findExact kbytes posPacked utf8 = c.findExact kbytes posPacked utf8 := by
  rw [LruArray.findExact, LruCache.findExact, h]

theorem set_used (m : LruArray) (slot : ℕ) (e : LruEntry) :
    (m.setEntry slot e).used = m.used.set slot e := List.take_set

theorem used_getD (h : Holds m c) (idx : ℕ) (hi : idx < c.entries.length) :
    m.entries.getD idx zeroEntry = c.entries[idx] := by
  have hget : m.used[idx]? = some c.entries[idx] := by
    rw [h]
    exact List.getElem?_eq_getElem hi
  rw [LruArray.used, List.getElem?_take_of_lt (by rw [holds_count h]; exact hi)] at hget
  rw [List.getD_eq_getElem?_getD, hget, Option.getD_some]

theorem victim_holds (h : Holds m c) (hne : c.entries ≠ []) :
    m.findEvictVictim = c.findEvictVictim := by
  obtain ⟨e, es, hes⟩ := List.exists_cons_of_ne_nil hne
  have hpos : 0 < c.entries.length := List.length_pos_iff.mpr hne
  have hhead : c.entries[0] = e := by simp only [hes, List.getElem_cons_zero]
  have hused : m.used = e::es := h.trans hes
  rw [LruArray.findEvictVictim, LruCache.findEvictVictim, used_getD h 0 hpos, hhead, hused, hes]
  rfl

theorem grow_used (m : LruArray) (e : LruEntry) (hc : m.count < kLruCap) :
    (m.entries.set m.count e).take (m.count+1) = m.used++[e] := by
  have hlt : m.count < (m.entries.set m.count e).length := by
    rw [List.length_set, m.size]
    exact hc
  rw [List.take_add_one, List.getElem?_eq_getElem hlt, List.getElem_set_self,
    List.take_set_of_le (le_refl _)]
  rfl

theorem upsert_holds (h : Holds m c) (kbytes : Bytes) (posPacked tone : UInt8) (utf8 : Bytes)
    (nowMs : UInt32) : Holds (m.upsert kbytes posPacked tone utf8 nowMs)
      (c.upsert kbytes posPacked tone utf8 nowMs) := by
  unfold LruArray.upsert LruCache.upsert
  rw [find_exact_holds h]
  by_cases ha : (1 ≤ kbytes.length ∧ kbytes.length ≤ 8) ∧ 1 ≤ utf8.length ∧ utf8.length ≤ 24
  · rw [if_pos ha, dif_pos ha]
    cases hf : c.findExact kbytes posPacked utf8 with
    | some idx =>
      obtain ⟨hi, -⟩ := List.findIdx?_eq_some_iff_getElem.mp hf
      have hmodify : c.entries.modify idx (fun e => LruCache.touch e tone nowMs) =
          c.entries.set idx (LruCache.touch c.entries[idx] tone nowMs) := by
        rw [List.modify_eq_set_getElem?, List.getElem?_eq_getElem hi]
        rfl
      dsimp only
      rw [Holds, set_used, used_getD h idx hi, h]
      exact hmodify.symm
    | none =>
      have hcount := holds_count h
      dsimp only
      by_cases hc : m.count < kLruCap
      · rw [dif_pos hc, dif_pos (hcount ▸ hc)]
        exact (grow_used m _ hc).trans (by rw [h])
      · have hne : c.entries ≠ [] := by
          intro hnil
          rw [hcount, hnil] at hc
          exact hc (by decide)
        rw [dif_neg hc, dif_neg (hcount ▸ hc), Holds, set_used, victim_holds h hne, h]
  · rw [if_neg ha, dif_neg ha]
    exact h

theorem serialize_holds (h : Holds m c) (cap : ℕ) : m.serialize cap = c.serialize cap := by
  rw [LruArray.serialize, LruCache.serialize, LruArray.serializedSize, LruCache.serializedSize,
    LruCache.image, LruCache.header, h, holds_count h]

theorem copied_used (n : ℕ) (buf : Bytes) :
    (LruArray.copied n buf).take n = (List.range n).map
      (fun i => LruCache.decodeEntry buf (LruCache.kHeaderSize+i*LruCache.kEntryBytes)) := by
  apply List.take_left'
  rw [List.length_map, List.length_range]

theorem deserialize_holds (h : Holds m c) (buf : Bytes) :
    Holds (m.deserialize buf).1 (c.deserialize buf).1 ∧
      (m.deserialize buf).2 = (c.deserialize buf).2 := by
  unfold LruArray.deserialize LruCache.deserialize
  split
  · exact ⟨h, rfl⟩
  split
  · exact ⟨h, rfl⟩
  split
  · rename_i hver
    rw [if_pos (show load16 buf 4 ≠ 1 from hver)]
    exact ⟨h, rfl⟩
  rename_i hver
  rw [if_neg (show ¬ load16 buf 4 ≠ 1 from hver)]
  split
  · exact ⟨h, rfl⟩
  split
  · exact ⟨h, rfl⟩
  · dsimp only
    simp only [LruArray.used, copied_used]
    split
    · exact ⟨copied_used _ _, rfl⟩
    · exact ⟨holds_cleared, rfl⟩

theorem deserialize_forgets (m m' : LruArray) (buf : Bytes) (h : (m.deserialize buf).2 = true) :
    m'.deserialize buf = m.deserialize buf := by
  unfold LruArray.deserialize at h ⊢
  split at h
  · cases h
  rename_i hlen
  split at h
  · cases h
  rename_i hmagic
  split at h
  · cases h
  rename_i hver
  split at h
  · cases h
  rename_i hcap
  split at h
  · cases h
  rename_i hall
  rw [if_neg hlen, if_neg hmagic, if_neg hver, dif_neg hcap, if_neg hall]
  rw [if_neg hlen, if_neg hmagic, if_neg hver, dif_neg hcap, if_neg hall]

theorem call_holds (h : Holds m c) (a : LruCall) :
    Holds (m.call a).1 (c.call a).1 ∧ (m.call a).2 = (c.call a).2 := by
  cases a with
  | reset => exact ⟨holds_cleared, rfl⟩
  | upsert kbytes posPacked tone utf8 nowMs =>
    exact ⟨upsert_holds h kbytes posPacked tone utf8 nowMs, rfl⟩
  | lookup userKeys hints maxResults =>
    refine ⟨h, ?_⟩
    simp only [LruArray.call, LruCache.call, LruArray.lookup, LruCache.lookup]
    rw [h]
  | serialize cap =>
    refine ⟨h, ?_⟩
    simp only [LruArray.call, LruCache.call, serialize_holds h]
  | deserialize buf =>
    have hd := deserialize_holds h buf
    exact ⟨hd.1, congrArg LruReply.accepted hd.2⟩

/-- Arrays that hold the same cache behave alike for ever after. -/
theorem behaviour_holds {m' : LruArray} (h : Holds m c) (h' : Holds m' c) (calls : List LruCall) :
    m.behaviour calls = m'.behaviour calls := by
  induction calls generalizing m m' c with
  | nil => rfl
  | cons a calls ih =>
    obtain ⟨hc, hr⟩ := call_holds h a
    obtain ⟨hc', hr'⟩ := call_holds h' a
    rw [LruArray.behaviour, LruArray.behaviour, holds_count hc, holds_count hc', hr, hr', ih hc hc']

theorem run_holds (calls : List LruCall) : ∃ c, Holds (LruArray.run calls) c := by
  have hfold : ∀ (m : LruArray) (c : LruCache), Holds m c →
      ∃ c', Holds (calls.foldl (fun m a => (m.call a).1) m) c' := by
    induction calls with
    | nil => exact fun m c h => ⟨c, h⟩
    | cons a calls ih => exact fun m c h => ih _ _ (call_holds h a).1
  exact hfold _ _ holds_cleared

end Holds

/-- The image of a cache that came about by any calls, read with anything behind it
into an array with anything in it, restores the count and the entries, and from then
on every reply is that of the original. -/
theorem persistence_round_trip (calls : List LruCall) (prior : LruArray) (trailing : Bytes) :
    let m := LruArray.run calls
    ∃ buf, m.serialize LruCache.kBlobMaxBytes = some buf ∧ buf.length = m.serializedSize ∧
      let read := prior.deserialize (buf++trailing)
      read.2 = true ∧ read.1.count = m.count ∧
      (∀ i < m.count, read.1.entries[i]? = m.entries[i]?) ∧
      ∀ more, read.1.behaviour more = m.behaviour more := by
  obtain ⟨c, hm⟩ := run_holds calls
  generalize LruArray.run calls = m at hm
  have hempty := deserialize_holds holds_cleared (c.image++trailing)
  rw [LruCache.deserialize_image] at hempty
  rw [← deserialize_forgets _ prior _ hempty.2] at hempty
  obtain ⟨hread, hok⟩ := hempty
  have hcount : (prior.deserialize (c.image++trailing)).1.count = m.count :=
    (holds_count hread).trans (holds_count hm).symm
  refine ⟨c.image, ?_, ?_, hok, hcount, ?_, behaviour_holds hread hm⟩
  · rw [serialize_holds hm, LruCache.serialize,
      if_neg (not_lt.mpr (LruCache.serialized_size_le c))]
  · rw [LruCache.image_length, LruCache.serializedSize, LruArray.serializedSize, holds_count hm]
  · intro i hi
    have hused : (prior.deserialize (c.image++trailing)).1.used = m.used := hread.trans hm.symm
    rw [LruArray.used, LruArray.used, hcount] at hused
    have hget := congrArg (fun l => l[i]?) hused
    simpa only [List.getElem?_take_of_lt hi] using hget

end MokyaLora
