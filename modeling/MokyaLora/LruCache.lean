import MokyaLora.TrieSearcher

/-!
# The personalised cache of committed readings

At most 128 triples of key bytes, packed phoneme hints and word. Entries are
read from a persisted image, inserted or refreshed by commits, and looked up by
the keys typed so far.
-/

set_option autoImplicit false

namespace MokyaLora
open Lib.Fields Lib.Ranked

def kHintAny : UInt8 := 0xFF

def kPackedAny : UInt8 := 0x3

def kLruPackedPositions : ℕ := 4

def hintToBits (hint : UInt8) : UInt8 := if hint = kHintAny then kPackedAny else hint &&& 0x3

def bitsToHint (bits : UInt8) : UInt8 := if bits = kPackedAny then kHintAny else bits

def hintMatches (stored user : UInt8) : Bool :=
  user == kHintAny || stored == kHintAny || stored == user

/-- The hints of the first four keys, two bits each; missing ones are ANY. -/
def lruPackPhonemeHints (hints : Bytes) : UInt8 :=
  (List.range kLruPackedPositions).foldl
    (fun packed k => packed ||| (hintToBits (hints.getD k kHintAny) <<< UInt8.ofNat (k*2))) 0

def lruUnpackPhonemeHint (posPacked : UInt8) (k : ℕ) : UInt8 :=
  if kLruPackedPositions ≤ k then kHintAny
  else bitsToHint ((posPacked >>> UInt8.ofNat (k*2)) &&& 0x3)

structure LruEntry where
  kbytes : Vector UInt8 8
  klen : UInt8
  posPacked : UInt8
  tone : UInt8
  utf8Len : UInt8
  utf8 : Vector UInt8 24
  lastUsedMs : UInt32
  useCount : UInt16
  reserved0 : UInt16
  reserved1 : UInt32
  deriving DecidableEq

namespace LruEntry

def keys (e : LruEntry) : Bytes := e.kbytes.toList.take e.klen.toNat

def wordBytes (e : LruEntry) : Bytes := e.utf8.toList.take e.utf8Len.toNat

def Valid (e : LruEntry) : Prop :=
  1 ≤ e.klen.toNat ∧ e.klen.toNat ≤ 8 ∧ 1 ≤ e.utf8Len.toNat ∧ e.utf8Len.toNat ≤ 24

instance (e : LruEntry) : Decidable e.Valid := by
  unfold Valid
  infer_instance

theorem keys_length (e : LruEntry) (h : e.Valid) : e.keys.length = e.klen.toNat := by
  have := h.2.1
  simp [keys]
  omega

theorem word_bytes_length (e : LruEntry) : e.wordBytes.length ≤ 24 := by
  rw [wordBytes, List.length_take, Vector.length_toList]
  exact Nat.min_le_right _ _

end LruEntry

def kLruCap : ℕ := 128

/-- The entries in use; the others are never read. -/
structure LruCache where
  entries : List LruEntry
  fits : entries.length ≤ kLruCap
  valid : ∀ e ∈ entries, e.Valid

namespace LruCache

def empty : LruCache := ⟨[], Nat.zero_le _, by simp⟩

def filled (n : ℕ) (b : Bytes) : Vector UInt8 n := Vector.ofFn (fun i => b.getD i.val 0)

def findExact (c : LruCache) (kbytes : Bytes) (posPacked : UInt8) (utf8 : Bytes) : Option ℕ :=
  c.entries.findIdx? (fun e => decide (e.klen.toNat = kbytes.length ∧ e.posPacked = posPacked ∧
    e.utf8Len.toNat = utf8.length ∧ e.keys = kbytes ∧ e.wordBytes = utf8))

def kReuseBonusMs : ℕ := 5000

def score (e : LruEntry) : ℕ := e.lastUsedMs.toNat+kReuseBonusMs*e.useCount.toNat

/-- The first entry of least score from index `i` on, against the best so far. -/
def victimFrom : List LruEntry → ℕ → ℕ → ℕ → ℕ
  | [], _, victim, _ => victim
  | e::es, i, victim, vScore =>
    if score e < vScore then victimFrom es (i+1) i (score e) else victimFrom es (i+1) victim vScore

def findEvictVictim (c : LruCache) : ℕ :=
  match c.entries with
  | [] => 0
  | e::es => victimFrom es 1 0 (score e)

def freshEntry (kbytes : Bytes) (posPacked tone : UInt8) (utf8 : Bytes) (nowMs : UInt32) :
    LruEntry :=
  ⟨filled 8 kbytes, UInt8.ofNat kbytes.length, posPacked, tone, UInt8.ofNat utf8.length,
    filled 24 utf8, nowMs, 1, 0, 0⟩

def touch (e : LruEntry) (tone : UInt8) (nowMs : UInt32) : LruEntry :=
  { e with
    lastUsedMs := nowMs
    useCount := if e.useCount < 0xFFFF then e.useCount+1 else e.useCount
    tone := tone }

theorem touched_valid (es : List LruEntry) (idx : ℕ) (tone : UInt8) (nowMs : UInt32)
    (h : ∀ e ∈ es, e.Valid) : ∀ e ∈ es.modify idx (fun e => touch e tone nowMs), e.Valid := by
  intro e he
  obtain ⟨j, hj, rfl⟩ := List.mem_iff_getElem.mp he
  have hlt : j < es.length := by simpa using hj
  have hv := h es[j] (List.getElem_mem hlt)
  rw [List.getElem_modify]
  split <;> exact hv

theorem fresh_entry_valid (kbytes : Bytes) (posPacked tone : UInt8) (utf8 : Bytes)
    (nowMs : UInt32) (hk : 1 ≤ kbytes.length ∧ kbytes.length ≤ 8)
    (hu : 1 ≤ utf8.length ∧ utf8.length ≤ 24) :
    (freshEntry kbytes posPacked tone utf8 nowMs).Valid := by
  simp [freshEntry, LruEntry.Valid]
  omega

theorem appended_valid (es : List LruEntry) (e : LruEntry) (h : ∀ f ∈ es, f.Valid) (he : e.Valid) :
    ∀ f ∈ es++[e], f.Valid := by
  intro f hf
  rcases List.mem_append.mp hf with hf | hf
  · exact h f hf
  · exact List.mem_singleton.mp hf ▸ he

theorem appended_fits (es : List LruEntry) (e : LruEntry) (h : es.length < kLruCap) :
    (es++[e]).length ≤ kLruCap := by
  rw [List.length_append]
  exact h

theorem replaced_valid (es : List LruEntry) (idx : ℕ) (e : LruEntry) (h : ∀ f ∈ es, f.Valid)
    (he : e.Valid) : ∀ f ∈ es.set idx e, f.Valid := by
  intro f hf
  rcases List.mem_or_eq_of_mem_set hf with hf | rfl
  · exact h f hf
  · exact he

def upsert (c : LruCache) (kbytes : Bytes) (posPacked tone : UInt8) (utf8 : Bytes)
    (nowMs : UInt32) : LruCache :=
  if h : (1 ≤ kbytes.length ∧ kbytes.length ≤ 8) ∧ 1 ≤ utf8.length ∧ utf8.length ≤ 24 then
    match c.findExact kbytes posPacked utf8 with
    | some idx =>
      ⟨c.entries.modify idx (fun e => touch e tone nowMs),
        le_of_eq_of_le (List.length_modify ..) c.fits, touched_valid _ _ _ _ c.valid⟩
    | none =>
      if hc : c.entries.length < kLruCap then
        ⟨c.entries++[freshEntry kbytes posPacked tone utf8 nowMs], appended_fits _ _ hc,
          appended_valid _ _ c.valid (fresh_entry_valid _ _ _ _ _ h.1 h.2)⟩
      else
        ⟨c.entries.set c.findEvictVictim (freshEntry kbytes posPacked tone utf8 nowMs),
          le_of_eq_of_le List.length_set c.fits,
          replaced_valid _ _ _ c.valid (fresh_entry_valid _ _ _ _ _ h.1 h.2)⟩
  else c

/-- The matching rule: equal keys, or a prefix of at least two, with hints that
agree. -/
def matchesKeys (e : LruEntry) (userKeys : Bytes) (hints : Option Bytes) : Bool :=
  decide (e.klen ≠ 0 ∧ e.klen.toNat ≤ userKeys.length ∧
    ¬(e.klen.toNat ≠ userKeys.length ∧ e.klen = 1) ∧
    e.keys = userKeys.take e.klen.toNat) &&
  (List.range e.klen.toNat).all (fun k =>
    hintMatches (lruUnpackPhonemeHint e.posPacked k)
      (match hints with
        | some h => h.getD k kHintAny
        | none => kHintAny))

def staler (e f : LruEntry) : Bool :=
  decide (e.lastUsedMs < f.lastUsedMs ∨ e.lastUsedMs = f.lastUsedMs ∧ e.useCount < f.useCount)

def sortMatches (ms : List LruEntry) : List LruEntry :=
  ms.foldl (fun l e => shiftIn (fun p => staler p e) l e) []

/-- `strncmp(out.word, e.utf8, e.utf8_len) == 0 && out.word[e.utf8_len] == 0` for
an entry emitted before. -/
def sameWord (out e : LruEntry) : Bool :=
  decide ((cstr out.wordBytes).take e.wordBytes.length = cstr e.wordBytes ∧
    out.wordBytes.getD e.wordBytes.length 0 = 0)

def dedupMatches (maxResults : ℕ) (ms : List LruEntry) : List LruEntry :=
  ms.foldl (fun out e =>
    if out.length < maxResults ∧ ¬ out.any (fun o => sameWord o e) then out++[e] else out) []

def emit (e : LruEntry) : Candidate × ℕ :=
  (.ofBytes e.wordBytes 65535 e.tone.toNat (lt_of_le_of_lt e.word_bytes_length (by decide)),
    e.klen.toNat)

def lookup (c : LruCache) (userKeys : Bytes) (hints : Option Bytes) (maxResults : ℕ) :
    List (Candidate × ℕ) :=
  (dedupMatches maxResults
    (sortMatches (c.entries.filter (fun e => matchesKeys e userKeys hints)))).map emit

def kMagic : Bytes := [0x4C, 0x52, 0x55, 0x31]

def kHeaderSize : ℕ := 8

def kEntryBytes : ℕ := 48

def decodeEntry (buf : Bytes) (off : ℕ) : LruEntry :=
  ⟨filled 8 (slice buf off 8), buf.getD (off+8) 0, buf.getD (off+9) 0, buf.getD (off+10) 0,
    buf.getD (off+11) 0, filled 24 (slice buf (off+12) 24), UInt32.ofNat (load32 buf (off+36)),
    UInt16.ofNat (load16 buf (off+40)), UInt16.ofNat (load16 buf (off+42)),
    UInt32.ofNat (load32 buf (off+44))⟩

/-- The cache after `deserialize`, and its result. A rejected header leaves the
cache alone, a rejected entry empties it. -/
def deserialize (c : LruCache) (buf : Bytes) : LruCache × Bool :=
  if buf.length < kHeaderSize then (c, false)
  else if slice buf 0 4 ≠ kMagic then (c, false)
  else if load16 buf 4 ≠ 1 then (c, false)
  else if hc : kLruCap < load16 buf 6 then (c, false)
  else if buf.length < kHeaderSize+load16 buf 6*kEntryBytes then (c, false)
  else
    let es := (List.range (load16 buf 6)).map (fun i => decodeEntry buf (kHeaderSize+i*kEntryBytes))
    if hv : ∀ e ∈ es, e.Valid then (⟨es, by simp [es]; omega, hv⟩, true) else (empty, false)

theorem sort_matches_mem (ms : List LruEntry) (e : LruEntry) :
    e ∈ sortMatches ms ↔ e ∈ ms := by
  rw [sortMatches, mem_shifted]
  simp

theorem dedup_matches_spec (maxResults : ℕ) (ms : List LruEntry) :
    (dedupMatches maxResults ms).length ≤ maxResults ∧ dedupMatches maxResults ms ⊆ ms := by
  have hfold : ∀ (done ms : List LruEntry), done.length ≤ maxResults →
      (ms.foldl (fun out e =>
        if out.length < maxResults ∧ ¬ out.any (fun o => sameWord o e) then out++[e] else out)
        done).length ≤ maxResults ∧
      ms.foldl (fun out e =>
        if out.length < maxResults ∧ ¬ out.any (fun o => sameWord o e) then out++[e] else out)
        done ⊆ done++ms := by
    intro done ms
    induction ms generalizing done with
    | nil => intro h; simpa using h
    | cons m ms ih =>
      intro h
      rw [List.foldl_cons]
      split
      · rename_i hm
        obtain ⟨hl, hs⟩ := ih (done++[m]) (by simp; omega)
        exact ⟨hl, by simpa using hs⟩
      · obtain ⟨hl, hs⟩ := ih done h
        exact ⟨hl, fun e he => by have := hs he; simp at this ⊢; tauto⟩
  simpa [dedupMatches] using hfold [] ms (Nat.zero_le _)

theorem lookup_spec (c : LruCache) (userKeys : Bytes) (hints : Option Bytes) (maxResults : ℕ) :
    (c.lookup userKeys hints maxResults).length ≤ maxResults ∧
    ∀ hit ∈ c.lookup userKeys hints maxResults, 1 ≤ hit.2 ∧ hit.2 ≤ userKeys.length := by
  obtain ⟨hl, hs⟩ := dedup_matches_spec maxResults
    (sortMatches (c.entries.filter (fun e => matchesKeys e userKeys hints)))
  refine ⟨by simpa [lookup] using hl, ?_⟩
  intro hit hhit
  obtain ⟨e, he, rfl⟩ := List.mem_map.mp hhit
  have hm := (sort_matches_mem _ e).mp (hs he)
  obtain ⟨hmem, hmatch⟩ := List.mem_filter.mp hm
  simp only [matchesKeys, Bool.and_eq_true, decide_eq_true_eq] at hmatch
  exact ⟨(c.valid e hmem).1, hmatch.1.2.1⟩

end LruCache

end MokyaLora
