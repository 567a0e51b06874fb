import MokyaLora.Lib.Fields
import MokyaLora.Lib.Ranked

/-!
# Prefix search in a two-buffer dictionary

The index is sorted by key. A search finds the first key not below the query and
scans on while the query is a prefix, keeping the most frequent words. Offsets
are 32-bit and wrap.
-/

set_option autoImplicit false

namespace MokyaLora
open Lib.Fields Lib.Ranked

def kCandidateMaxBytes : ℕ := 32

structure Candidate where
  word : Bytes
  freq : ℕ
  tone : ℕ
  fits : word.length < kCandidateMaxBytes
  deriving DecidableEq

/-- The string that starts a zero-filled array: the bytes in front of the first NUL. -/
def cstr (b : Bytes) : Bytes := b.takeWhile (fun c => c != 0)

theorem cstr_length (b : Bytes) : (cstr b).length ≤ b.length :=
  (List.takeWhile_prefix _).length_le

def Candidate.ofBytes (b : Bytes) (freq tone : ℕ) (h : b.length < kCandidateMaxBytes) : Candidate :=
  ⟨cstr b, freq, tone, lt_of_le_of_lt (cstr_length b) h⟩

def memcmp : Bytes → Bytes → Ordering
  | a::as, b::bs => (compare a b).then (memcmp as bs)
  | _, _ => .eq

def u32 (n : ℕ) : ℕ := n % 4294967296

structure TrieSearcher where
  dat : Bytes
  val : Bytes
  keyCount : ℕ
  keysDataOff : ℕ
  version : ℕ

namespace TrieSearcher

def kMagic : Bytes := [0x4D, 0x49, 0x45, 0x44]

def kHeaderSize : ℕ := 16

def kEntrySize : ℕ := 8

def loadFromMemory (dat val : Bytes) : Option TrieSearcher :=
  if dat.length < kHeaderSize then none
  else if slice dat 0 4 ≠ kMagic then none
  else if load16 dat 4 < 1 ∨ 2 < load16 dat 4 then none
  else if load32 dat 12 < kHeaderSize+load32 dat 8*kEntrySize then none
  else if dat.length < load32 dat 12 then none
  else some ⟨dat, val, load32 dat 8, load32 dat 12, load16 dat 4⟩

variable (t : TrieSearcher)

def compareKey (idx : ℕ) (query : Bytes) : Ordering :=
  let kposLen := u32 (t.keysDataOff+load32 t.dat (kHeaderSize+idx*kEntrySize))
  if t.dat.length ≤ kposLen then .gt
  else
    let klen := byteAt t.dat kposLen
    let kpos := u32 (kposLen+1)
    if t.dat.length < u32 (kpos+klen) then .gt
    else
      let clen := min klen query.length
      (memcmp (slice t.dat kpos clen) (query.take clen)).then (compare klen query.length)

def getValOff (idx : ℕ) : ℕ := load32 t.dat (kHeaderSize+idx*kEntrySize+4)

/-- The binary search for the first index whose key is not below the query; the
interval shrinks in every round, so its length is enough rounds. -/
def lowerBound (query : Bytes) : ℕ → ℕ → ℕ → ℕ
  | 0, lo, _ => lo
  | n+1, lo, hi =>
    if lo < hi then
      let mid := lo+(hi-lo)/2
      if t.compareKey mid query = .lt then lowerBound query n (mid+1) hi
      else lowerBound query n lo mid
    else lo

def hasTone : Bool := t.version == 2

def hdrBytes : ℕ := if t.hasTone then 4 else 3

def toneAt (vo : ℕ) : ℕ := if t.hasTone then byteAt t.val (vo+2) else 0

def wlenAt (vo : ℕ) : ℕ := byteAt t.val (vo+(if t.hasTone then 3 else 2))

/-- Puts a word into the list of at most `maxResults` found so far, kept in
descending order of frequency. -/
def insertWord (maxResults : ℕ) (out : List Candidate) (c : Candidate) : List Candidate :=
  if out.length < maxResults then shiftIn (fun p => decide (p.freq < c.freq)) out c
  else match out.getLast? with
    | some last =>
      if last.freq < c.freq then shiftIn (fun p => decide (p.freq < c.freq)) out.dropLast c
      else out
    | none => out

def mergeWords (maxResults : ℕ) : ℕ → ℕ → List Candidate → List Candidate
  | 0, _, out => out
  | n+1, vo, out =>
    if t.val.length < u32 (vo+t.hdrBytes) then out
    else
      let wlen := t.wlenAt vo
      let next := u32 (vo+t.hdrBytes)
      if t.val.length < u32 (next+wlen) then out
      else if h : wlen = 0 ∨ kCandidateMaxBytes ≤ wlen then
        mergeWords maxResults n (u32 (next+wlen)) out
      else if out.any (fun c => decide (c.word = slice t.val next wlen)) then
        mergeWords maxResults n (u32 (next+wlen)) out
      else
        mergeWords maxResults n (u32 (next+wlen)) (insertWord maxResults out
          (.ofBytes (slice t.val next wlen) (load16 t.val vo) (t.toneAt vo)
            (lt_of_le_of_lt (slice_length_le _ _ _) (by omega))))

def scan (query : Bytes) (maxResults : ℕ) : ℕ → ℕ → List Candidate → List Candidate
  | 0, _, out => out
  | n+1, i, out =>
    let kposLen := u32 (t.keysDataOff+load32 t.dat (kHeaderSize+i*kEntrySize))
    if t.dat.length < u32 (kposLen+1) then out
    else
      let klen := byteAt t.dat kposLen
      let kpos := u32 (kposLen+1)
      if t.dat.length < u32 (kpos+klen) then out
      else if klen < query.length then out
      else if slice t.dat kpos query.length ≠ query then out
      else
        let vo := t.getValOff i
        if t.val.length < u32 (vo+2) then scan query maxResults n (i+1) out
        else scan query maxResults n (i+1)
          (t.mergeWords maxResults (load16 t.val vo) (u32 (vo+2)) out)

def search (query : Bytes) (maxResults : ℕ) : List Candidate :=
  if query = [] ∨ maxResults = 0 then []
  else
    let lo := t.lowerBound query t.keyCount 0 t.keyCount
    t.scan query maxResults (t.keyCount-lo) lo []

theorem insertWord_length (maxResults : ℕ) (out : List Candidate) (c : Candidate)
    (h : out.length ≤ maxResults) : (insertWord maxResults out c).length ≤ maxResults := by
  unfold insertWord
  split
  · simp; omega
  · cases hl : out.getLast? with
    | none => exact h
    | some last =>
      have hne : out ≠ [] := by
        rintro rfl
        simp at hl
      have hpos := List.length_pos_iff.mpr hne
      simp only
      split
      · simp; omega
      · exact h

theorem mergeWords_length (maxResults n vo : ℕ) (out : List Candidate)
    (h : out.length ≤ maxResults) : (t.mergeWords maxResults n vo out).length ≤ maxResults := by
  induction n generalizing vo out with
  | zero => exact h
  | succ n ih =>
    simp only [mergeWords]
    split_ifs
    · exact h
    · exact h
    · exact ih _ _ h
    · exact ih _ _ h
    · exact ih _ _ (insertWord_length _ _ _ h)

theorem scan_length (query : Bytes) (maxResults n i : ℕ) (out : List Candidate)
    (h : out.length ≤ maxResults) : (t.scan query maxResults n i out).length ≤ maxResults := by
  induction n generalizing i out with
  | zero => exact h
  | succ n ih =>
    simp only [scan]
    split_ifs
    · exact h
    · exact h
    · exact h
    · exact h
    · exact ih _ _ h
    · exact ih _ _ (mergeWords_length t _ _ _ _ h)

theorem search_length (query : Bytes) (maxResults : ℕ) :
    (t.search query maxResults).length ≤ maxResults := by
  unfold search
  split
  · exact Nat.zero_le _
  · exact scan_length t query maxResults _ _ [] (Nat.zero_le _)

end TrieSearcher

end MokyaLora
