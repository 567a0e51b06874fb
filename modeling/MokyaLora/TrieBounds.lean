import MokyaLora.TrieSearcher

/-!
# The reads and writes of a prefix search

The search once more, with every read of the two buffers and every access to the result
array checked: `none` is an access outside. Guards are 32-bit sums that can wrap, so an
entry whose offset is close to the end of the numbers passes a guard that it should not.
-/

set_option autoImplicit false

namespace MokyaLora
open Lib.Fields Lib.Ranked

/-- An element of the result array as it lies in memory. -/
structure Slot where
  word : Bytes
  freq : ℕ
  tone : ℕ
  size : word.length = kCandidateMaxBytes
  deriving DecidableEq

namespace Slot

/-- `strlen` runs out of the array where it has no terminator. -/
def strlen (s : Slot) : Option ℕ := if 0 ∈ s.word then some (cstr s.word).length else none

def fill (s : Slot) (w : Bytes) (freq tone : ℕ) : Option Slot :=
  if h : w.length < kCandidateMaxBytes then
    some ⟨w++0::s.word.drop (w.length+1), freq, tone, by
      rw [List.length_append, List.length_cons, List.length_drop, s.size]
      omega⟩
  else none

def shown (s : Slot) : Bytes × ℕ × ℕ := (cstr s.word, s.freq, s.tone)

end Slot

def Candidate.shown (c : Candidate) : Bytes × ℕ × ℕ := (c.word, c.freq, c.tone)

namespace TrieSearcher

variable (t : TrieSearcher)

def entryOff (idx : ℕ) : ℕ := u32 (kHeaderSize+idx*kEntrySize)

def compareKeyChecked (idx : ℕ) (query : Bytes) : Option Ordering := do
  let ko ← read32 t.dat (entryOff idx)
  let kposLen := u32 (t.keysDataOff+ko)
  if t.dat.length ≤ kposLen then some .gt
  else
    let klen ← readByte t.dat kposLen
    let kpos := u32 (kposLen+1)
    if t.dat.length < u32 (kpos+klen) then some .gt
    else
      let clen := min klen query.length
      let key ← readBytes t.dat kpos clen
      some ((memcmp key (query.take clen)).then (compare klen query.length))

def lowerBoundChecked (query : Bytes) : ℕ → ℕ → ℕ → Option ℕ
  | 0, lo, _ => some lo
  | n+1, lo, hi =>
    if lo < hi then do
      let mid := lo+(hi-lo)/2
      let order ← t.compareKeyChecked mid query
      if order = .lt then lowerBoundChecked query n (mid+1) hi
      else lowerBoundChecked query n lo mid
    else some lo

def findWord (out : List Slot) (w : Bytes) : ℕ → ℕ → Option Bool
  | 0, _ => some false
  | n+1, j => do
    let s ← out[j]?
    let len ← s.strlen
    if len = w.length ∧ slice s.word 0 len = w then some true else findWord out w n (j+1)

def placeWord (pos : ℕ) (out : List Slot) (w : Bytes) (freq tone : ℕ) : Option (List Slot) := do
  let (p, out) ← shiftUp (fun s => decide (s.freq < freq)) pos out
  let s ← out[p]?
  let s ← s.fill w freq tone
  some (out.set p s)

def insertWordChecked (maxResults : ℕ) (r : ℕ × List Slot) (w : Bytes) (freq tone : ℕ) :
    Option (ℕ × List Slot) :=
  if r.1 < maxResults then do
    let out ← placeWord r.1 r.2 w freq tone
    some (r.1+1, out)
  else do
    let last ← r.2[r.1-1]?
    if last.freq < freq then
      let out ← placeWord (r.1-1) r.2 w freq tone
      some (r.1, out)
    else some r

def readTone (vo : ℕ) : Option ℕ := if t.hasTone then readByte t.val (u32 (vo+2)) else some 0

def mergeWordsChecked (maxResults : ℕ) : ℕ → ℕ → ℕ × List Slot → Option (ℕ × List Slot)
  | 0, _, r => some r
  | n+1, vo, r =>
    if t.val.length < u32 (vo+t.hdrBytes) then some r
    else do
      let freq ← read16 t.val vo
      let tone ← t.readTone vo
      let wlen ← readByte t.val (u32 (vo+(if t.hasTone then 3 else 2)))
      let next := u32 (vo+t.hdrBytes)
      if t.val.length < u32 (next+wlen) then some r
      else if wlen = 0 ∨ kCandidateMaxBytes ≤ wlen then
        mergeWordsChecked maxResults n (u32 (next+wlen)) r
      else
        let w ← readBytes t.val next wlen
        let dup ← findWord r.2 w r.1 0
        if dup then mergeWordsChecked maxResults n (u32 (next+wlen)) r
        else
          let r' ← insertWordChecked maxResults r w freq tone
          mergeWordsChecked maxResults n (u32 (next+wlen)) r'

def scanChecked (query : Bytes) (maxResults : ℕ) :
    ℕ → ℕ → ℕ × List Slot → Option (ℕ × List Slot)
  | 0, _, r => some r
  | n+1, i, r => do
    let ko ← read32 t.dat (entryOff i)
    let kposLen := u32 (t.keysDataOff+ko)
    if t.dat.length < u32 (kposLen+1) then some r
    else
      let klen ← readByte t.dat kposLen
      let kpos := u32 (kposLen+1)
      if t.dat.length < u32 (kpos+klen) then some r
      else if klen < query.length then some r
      else
        let key ← readBytes t.dat kpos query.length
        if key ≠ query then some r
        else
          let vo ← read32 t.dat (u32 (entryOff i+4))
          if t.val.length < u32 (vo+2) then scanChecked query maxResults n (i+1) r
          else
            let wordCount ← read16 t.val vo
            let r' ← t.mergeWordsChecked maxResults wordCount (u32 (vo+2)) r
            scanChecked query maxResults n (i+1) r'

def searchChecked (query : Bytes) (maxResults : ℕ) (out : List Slot) : Option (ℕ × List Slot) :=
  if query = [] ∨ maxResults = 0 then some (0, out)
  else do
    let lo ← t.lowerBoundChecked query t.keyCount 0 t.keyCount
    t.scanChecked query maxResults (t.keyCount-lo) lo (0, out)

/-- What the checks of the header leave. -/
structure Loaded : Prop where
  table : kHeaderSize+t.keyCount*kEntrySize ≤ t.keysDataOff
  keysData : t.keysDataOff ≤ t.dat.length
  dat : t.dat.length < 2147483648
  val : t.val.length < 2147483648

theorem load_loaded (dat val : Bytes) (t : TrieSearcher) (h : loadFromMemory dat val = some t)
    (hdat : dat.length < 2147483648) (hval : val.length < 2147483648) : t.Loaded := by
  rw [loadFromMemory] at h
  split_ifs at h with hsize hmagic hversion htable hdata
  obtain rfl := Option.some.inj h
  exact ⟨not_lt.mp htable, not_lt.mp hdata, hdat, hval⟩

theorem u32_of_lt (n : ℕ) (h : n < 4294967296) : u32 n = n := Nat.mod_eq_of_lt h

variable {t}

theorem entry_bound (h : t.Loaded) (i : ℕ) (hi : i < t.keyCount) :
    entryOff i = kHeaderSize+i*kEntrySize ∧ entryOff i+8 ≤ t.dat.length := by
  have htable := h.table
  have hdata := h.keysData
  have hdat := h.dat
  have hoff : entryOff i = kHeaderSize+i*kEntrySize := by
    apply u32_of_lt
    simp only [kHeaderSize, kEntrySize] at htable ⊢
    omega
  refine ⟨hoff, ?_⟩
  rw [hoff]
  simp only [kHeaderSize, kEntrySize] at htable ⊢
  omega

theorem read_key_off (h : t.Loaded) (i : ℕ) (hi : i < t.keyCount) :
    read32 t.dat (entryOff i) = some (load32 t.dat (kHeaderSize+i*kEntrySize)) := by
  obtain ⟨hoff, hfits⟩ := entry_bound h i hi
  rw [read32, if_pos (by omega), hoff]

theorem compare_key_checked (h : t.Loaded) (query : Bytes) (i : ℕ) (hi : i < t.keyCount) :
    t.compareKeyChecked i query = some (t.compareKey i query) := by
  have hdat := h.dat
  rw [compareKeyChecked, read_key_off h i hi, compareKey]
  simp only [Option.bind_eq_bind, Option.bind_some]
  generalize u32 (t.keysDataOff+load32 t.dat (kHeaderSize+i*kEntrySize)) = kposLen
  by_cases hpos : t.dat.length ≤ kposLen
  · rw [if_pos hpos, if_pos hpos]
  · have hbyte := byteAt_lt t.dat kposLen
    have hkpos : u32 (kposLen+1) = kposLen+1 := u32_of_lt _ (by omega)
    rw [if_neg hpos, if_neg hpos, readByte, if_pos (not_le.mp hpos), Option.bind_some, hkpos,
      u32_of_lt (kposLen+1+byteAt t.dat kposLen) (by omega)]
    by_cases hlen : t.dat.length < kposLen+1+byteAt t.dat kposLen
    · rw [if_pos hlen, if_pos hlen]
    · rw [if_neg hlen, if_neg hlen, readBytes, if_pos (by omega), Option.bind_some]

theorem lower_bound_checked (h : t.Loaded) (query : Bytes) (n lo hi : ℕ) (hhi : hi ≤ t.keyCount) :
    t.lowerBoundChecked query n lo hi = some (t.lowerBound query n lo hi) := by
  induction n generalizing lo hi with
  | zero => rfl
  | succ n ih =>
    rw [lowerBoundChecked, lowerBound]
    by_cases hlt : lo < hi
    · have hmid : lo+(hi-lo)/2 < t.keyCount := by omega
      rw [if_pos hlt, if_pos hlt]
      simp only [compare_key_checked h query _ hmid, Option.bind_eq_bind, Option.bind_some]
      split
      · exact ih _ _ hhi
      · exact ih _ _ hmid.le
    · rw [if_neg hlt, if_neg hlt]

theorem cstr_terminated (w rest : Bytes) : cstr (w++0::rest) = cstr w := by
  induction w with
  | nil => rfl
  | cons c w ih =>
    rw [List.cons_append, cstr, List.takeWhile_cons, cstr, List.takeWhile_cons]
    rw [cstr, cstr] at ih
    rw [ih]

theorem strlen_eq (s : Slot) (h : 0 ∈ s.word) : s.strlen = some (cstr s.word).length := if_pos h

theorem fill_eq (s : Slot) (w : Bytes) (freq tone : ℕ) (h : w.length < kCandidateMaxBytes) :
    ∃ s', s.fill w freq tone = some s' ∧ s'.shown = (cstr w, freq, tone) ∧ 0 ∈ s'.word ∧
      s'.freq = freq :=
  ⟨_, dif_pos h, by rw [Slot.shown, cstr_terminated], by simp, rfl⟩

/-- The first `r.1` elements of the array are the results in `l`, and from `maxResults` on
nothing has been written. -/
structure Stores (maxResults : ℕ) (out : List Slot) (r : ℕ × List Slot) (l : List Candidate) :
    Prop where
  count : r.1 = l.length
  bound : r.1 ≤ maxResults
  results : (r.2.take r.1).map Slot.shown = l.map Candidate.shown
  terminated : ∀ s ∈ r.2.take r.1, 0 ∈ s.word
  frame : r.2.drop maxResults = out.drop maxResults
  length : r.2.length = out.length

variable {maxResults : ℕ} {out : List Slot} {r : ℕ × List Slot} {l : List Candidate}

theorem Stores.get (h : Stores maxResults out r l) (hout : maxResults ≤ out.length) (j : ℕ)
    (hj : j < r.1) : ∃ s, ∃ c, r.2[j]? = some s ∧ l[j]? = some c ∧ 0 ∈ s.word ∧
      s.shown = c.shown := by
  have hbound := h.bound
  have hlen := h.length
  have hjr : j < r.2.length := by omega
  have hjl : j < l.length := h.count ▸ hj
  refine ⟨r.2[j], l[j], List.getElem?_eq_getElem hjr, List.getElem?_eq_getElem hjl, ?_, ?_⟩
  · apply h.terminated
    rw [List.mem_take_iff_getElem]
    exact ⟨j, by omega, rfl⟩
  · have hres := congrArg (fun m => m[j]?) h.results
    simpa [hj, hjr, hjl] using hres

theorem cstr_eq_iff (s : Slot) (w : Bytes) :
    ((cstr s.word).length = w.length ∧ slice s.word 0 (cstr s.word).length = w) ↔
      cstr s.word = w := by
  have hslice : slice s.word 0 (cstr s.word).length = cstr s.word :=
    (List.prefix_iff_eq_take.mp (List.takeWhile_prefix _)).symm
  rw [hslice]
  constructor
  · exact fun h => h.2
  · exact fun h => ⟨congrArg List.length h, h⟩

theorem find_word_checked (h : Stores maxResults out r l) (hout : maxResults ≤ out.length)
    (w : Bytes) (n j : ℕ) (hn : j+n = r.1) :
    findWord r.2 w n j = some ((l.drop j).any (fun c => decide (c.word = w))) := by
  induction n generalizing j with
  | zero =>
    have hdrop : l.drop j = [] := List.drop_eq_nil_of_le (by rw [← h.count]; omega)
    rw [findWord, hdrop]
    rfl
  | succ n ih =>
    obtain ⟨s, c, hs, hc, hnul, hshown⟩ := h.get hout j (by omega)
    obtain ⟨hjl, hcj⟩ := List.getElem?_eq_some_iff.mp hc
    have hword : cstr s.word = c.word := congrArg Prod.fst hshown
    rw [findWord, hs]
    simp only [Option.bind_eq_bind, Option.bind_some, strlen_eq s hnul, cstr_eq_iff]
    rw [hword, List.drop_eq_getElem_cons hjl, hcj, List.any_cons]
    by_cases hw : c.word = w
    · rw [if_pos hw, decide_eq_true hw, Bool.true_or]
    · rw [if_neg hw, decide_eq_false hw, Bool.false_or]
      exact ih (j+1) (by omega)

theorem place_word_checked (pos : ℕ) (arr : List Slot) (w : Bytes) (freq tone : ℕ)
    (hpos : pos < arr.length) (hw : w.length < kCandidateMaxBytes) :
    ∃ s : Slot, s.shown = (cstr w, freq, tone) ∧ 0 ∈ s.word ∧
      placeWord pos arr w freq tone =
        some (shiftIn (fun s => decide (s.freq < freq)) (arr.take pos) s++arr.drop (pos+1)) := by
  obtain ⟨p, arr', y, hshift, hget, hset⟩ :=
    shiftUp_eq (fun s : Slot => decide (s.freq < freq)) pos arr hpos
  obtain ⟨s, hfill, hshown, hnul, -⟩ := fill_eq y w freq tone hw
  refine ⟨s, hshown, hnul, ?_⟩
  rw [placeWord, hshift, ← hset s]
  simp only [Option.bind_eq_bind, Option.bind_some, hget, hfill]

theorem stores_placed (k : ℕ) (l' : List Candidate) (c : Candidate) (s : Slot)
    (h : Stores maxResults out r l) (hout : maxResults ≤ out.length) (hk : k < maxResults)
    (hkr : k ≤ r.1) (hl' : l' = l.take k) (hshown : s.shown = c.shown) (hnul : 0 ∈ s.word) :
    Stores maxResults out (k+1, shiftIn (fun s => decide (s.freq < c.freq)) (r.2.take k) s++
      r.2.drop (k+1)) (shiftIn (fun p => decide (p.freq < c.freq)) l' c) := by
  have hlen := h.length
  have hkl : k ≤ r.2.length := by omega
  have hsize : (shiftIn (fun s => decide (s.freq < c.freq)) (r.2.take k) s).length = k+1 := by
    rw [shiftIn_length, List.length_take_of_le hkl]
  have htake : (r.2.take k).map Slot.shown = l'.map Candidate.shown := by
    have hres := congrArg (List.take k) h.results
    rw [← List.map_take, ← List.map_take, List.take_take, Nat.min_eq_left hkr] at hres
    rw [hl', hres]
  constructor
  · rw [shiftIn_length, hl', List.length_take_of_le (by rw [← h.count]; exact hkr)]
  · exact hk
  · rw [List.take_left' hsize]
    have hslots := shiftIn_map (fun s : Slot => decide (s.freq < c.freq))
      (fun x : Bytes × ℕ × ℕ => decide (x.2.1 < c.freq)) Slot.shown (r.2.take k) s (fun y _ => rfl)
    have hcands := shiftIn_map (fun p : Candidate => decide (p.freq < c.freq))
      (fun x : Bytes × ℕ × ℕ => decide (x.2.1 < c.freq)) Candidate.shown l' c (fun y _ => rfl)
    rw [← hslots, ← hcands, htake, hshown]
  · rw [List.take_left' hsize]
    intro x hx
    rcases (mem_shiftIn _ _ _ _).mp hx with rfl | hx
    · exact hnul
    · apply h.terminated
      rw [← Nat.min_eq_left hkr, ← List.take_take] at hx
      exact List.mem_of_mem_take hx
  · rw [List.drop_append, hsize, List.drop_eq_nil_of_le (by omega), List.nil_append,
      List.drop_drop, ← h.frame]
    congr 1
    omega
  · rw [List.length_append, hsize, List.length_drop, ← hlen]
    omega

theorem insert_word_checked (h : Stores maxResults out r l) (hout : maxResults ≤ out.length)
    (hpos : 0 < maxResults) (w : Bytes) (freq tone : ℕ) (hw : w.length < kCandidateMaxBytes) :
    ∃ r', insertWordChecked maxResults r w freq tone = some r' ∧
      Stores maxResults out r' (insertWord maxResults l (.ofBytes w freq tone hw)) := by
  have hlen := h.length
  have hbound := h.bound
  rw [insertWordChecked, insertWord, ← h.count]
  by_cases hroom : r.1 < maxResults
  · obtain ⟨s, hshown, hnul, hplace⟩ := place_word_checked r.1 r.2 w freq tone (by omega) hw
    rw [if_pos hroom, if_pos hroom, hplace]
    refine ⟨_, rfl, ?_⟩
    exact stores_placed r.1 l (.ofBytes w freq tone hw) s h hout hroom le_rfl
      (by rw [h.count, List.take_length]) hshown hnul
  · have hfull : r.1 = maxResults := by omega
    obtain ⟨last, c, hlast, hc, -, hlastShown⟩ := h.get hout (r.1-1) (by omega)
    have hfreq : last.freq = c.freq := congrArg (fun x : Bytes × ℕ × ℕ => x.2.1) hlastShown
    have hlastc : l.getLast? = some c := by
      rw [List.getLast?_eq_getElem?, ← h.count, hc]
    rw [if_neg hroom, if_neg hroom, hlast, hlastc]
    simp only [Option.bind_eq_bind, Option.bind_some, hfreq]
    by_cases hbetter : c.freq < freq
    · obtain ⟨s, hshown, hnul, hplace⟩ :=
        place_word_checked (r.1-1) r.2 w freq tone (by omega) hw
      rw [if_pos hbetter, if_pos (by exact hbetter), hplace]
      refine ⟨_, rfl, ?_⟩
      have hplaced := stores_placed (r.1-1) l.dropLast (.ofBytes w freq tone hw) s h hout (by omega)
        (by omega) (by rw [List.dropLast_eq_take, h.count]) hshown hnul
      rw [Nat.sub_add_cancel (show 1 ≤ r.1 by omega)] at hplaced ⊢
      exact hplaced
    · rw [if_neg hbetter, if_neg (by exact hbetter)]
      exact ⟨r, rfl, h⟩

theorem hdr_le (t : TrieSearcher) : t.hdrBytes ≤ 4 := by
  rw [hdrBytes]
  split <;> omega

theorem header_read (hval : t.val.length < 2147483648) (vo : ℕ)
    (h : vo+t.hdrBytes ≤ t.val.length) :
    read16 t.val vo = some (load16 t.val vo) ∧ t.readTone vo = some (t.toneAt vo) ∧
      readByte t.val (u32 (vo+(if t.hasTone then 3 else 2))) = some (t.wlenAt vo) := by
  rw [hdrBytes] at h
  rw [readTone, toneAt, wlenAt]
  by_cases ht : t.hasTone = true
  · simp only [if_pos ht] at h ⊢
    rw [u32_of_lt _ (by omega), u32_of_lt _ (by omega), read16, readByte, readByte,
      if_pos (by omega), if_pos (by omega), if_pos (by omega)]
    exact ⟨rfl, rfl, rfl⟩
  · simp only [if_neg ht] at h ⊢
    rw [u32_of_lt _ (by omega), read16, readByte, if_pos (by omega), if_pos (by omega)]
    exact ⟨rfl, trivial, rfl⟩

theorem merge_words_checked (hval : t.val.length < 2147483648) (hout : maxResults ≤ out.length)
    (hpos : 0 < maxResults) (n vo : ℕ) (hvo : vo ≤ t.val.length)
    (h : Stores maxResults out r l) :
    ∃ r', t.mergeWordsChecked maxResults n vo r = some r' ∧
      Stores maxResults out r' (t.mergeWords maxResults n vo l) := by
  induction n generalizing vo r l with
  | zero => exact ⟨r, rfl, h⟩
  | succ n ih =>
    have hhdr4 := hdr_le t
    have hnext : u32 (vo+t.hdrBytes) = vo+t.hdrBytes := u32_of_lt _ (by omega)
    simp only [mergeWordsChecked, mergeWords, hnext]
    by_cases hrecord : t.val.length < vo+t.hdrBytes
    · rw [if_pos hrecord, if_pos hrecord]
      exact ⟨r, rfl, h⟩
    · obtain ⟨hfreq, htone, hwlen⟩ := header_read hval vo (not_lt.mp hrecord)
      have hbyte : t.wlenAt vo < 256 := byteAt_lt _ _
      rw [if_neg hrecord, if_neg hrecord, hfreq, htone, hwlen]
      simp only [Option.bind_eq_bind, Option.bind_some]
      have hend : u32 (vo+t.hdrBytes+t.wlenAt vo) = vo+t.hdrBytes+t.wlenAt vo :=
        u32_of_lt _ (by omega)
      simp only [hend]
      by_cases hword : t.val.length < vo+t.hdrBytes+t.wlenAt vo
      · rw [if_pos hword, if_pos hword]
        exact ⟨r, rfl, h⟩
      · have hfits : vo+t.hdrBytes+t.wlenAt vo ≤ t.val.length := not_lt.mp hword
        rw [if_neg hword, if_neg hword]
        by_cases hskip : t.wlenAt vo = 0 ∨ kCandidateMaxBytes ≤ t.wlenAt vo
        · rw [if_pos hskip, dif_pos hskip]
          exact ih _ hfits h
        · rw [if_neg hskip, dif_neg hskip, readBytes, if_pos hfits]
          simp only [Option.bind_some]
          rw [find_word_checked h hout _ r.1 0 (Nat.zero_add _), List.drop_zero, Option.bind_some]
          by_cases hdup : (l.any fun c => decide (c.word =
              slice t.val (vo+t.hdrBytes) (t.wlenAt vo))) = true
          · rw [if_pos hdup, if_pos hdup]
            exact ih _ hfits h
          · obtain ⟨r', hinsert, hstores⟩ := insert_word_checked h hout hpos
              (slice t.val (vo+t.hdrBytes) (t.wlenAt vo)) (load16 t.val vo) (t.toneAt vo)
              (lt_of_le_of_lt (slice_length_le _ _ _) (by omega))
            rw [if_neg hdup, if_neg hdup, hinsert, Option.bind_some]
            exact ih _ hfits hstores

variable (t)

def keyPos (i : ℕ) : ℕ := u32 (t.keysDataOff+load32 t.dat (kHeaderSize+i*kEntrySize))

theorem key_pos_eq (i : ℕ) :
    u32 (t.keysDataOff+load32 t.dat (kHeaderSize+i*kEntrySize)) = t.keyPos i := by
  rw [keyPos]

def Matches (query : Bytes) (i : ℕ) : Prop :=
  u32 (t.keyPos i+1) ≤ t.dat.length ∧
    u32 (u32 (t.keyPos i+1)+byteAt t.dat (t.keyPos i)) ≤ t.dat.length ∧
    query.length ≤ byteAt t.dat (t.keyPos i) ∧
    slice t.dat (u32 (t.keyPos i+1)) query.length = query

instance (query : Bytes) (i : ℕ) : Decidable (t.Matches query i) :=
  inferInstanceAs (Decidable (_ ∧ _ ∧ _ ∧ _))

/-- The offset of the key is the last of the numbers, so the sum in its guard is 0. -/
def KeyWraps (i : ℕ) : Prop := t.keyPos i = 4294967295

/-- The end of the word count wraps, and the guard lets it pass. -/
def ValWraps (i : ℕ) : Prop :=
  4294967294 ≤ t.getValOff i ∧ u32 (t.getValOff i+2) ≤ t.val.length

def Wraps (query : Bytes) (i : ℕ) : Prop := t.KeyWraps i ∨ (t.Matches query i ∧ t.ValWraps i)

/-- The scan that starts at `lo` comes to the entry. -/
def Visits (query : Bytes) (lo i : ℕ) : Prop :=
  lo ≤ i ∧ i < t.keyCount ∧ ∀ j, lo ≤ j → j < i → t.Matches query j

theorem visits_self (query : Bytes) (i : ℕ) (hi : i < t.keyCount) : t.Visits query i i :=
  ⟨le_rfl, hi, fun _ hj hlt => absurd hj (not_le.mpr hlt)⟩

theorem visits_succ (query : Bytes) (lo i : ℕ) (hm : t.Matches query lo)
    (h : t.Visits query (lo+1) i) : t.Visits query lo i := by
  refine ⟨by have := h.1; omega, h.2.1, fun j hj hlt => ?_⟩
  by_cases heq : j = lo
  · exact heq ▸ hm
  · exact h.2.2 j (by omega) hlt

theorem visits_cases (query : Bytes) (lo i : ℕ) (h : t.Visits query lo i) :
    i = lo ∨ (t.Matches query lo ∧ t.Visits query (lo+1) i) := by
  by_cases heq : i = lo
  · exact .inl heq
  · have hlt : lo < i := lt_of_le_of_ne h.1 (Ne.symm heq)
    exact .inr ⟨h.2.2 lo le_rfl hlt, hlt, h.2.1, fun j hj => h.2.2 j (by omega)⟩

def entryWords (maxResults i : ℕ) (l : List Candidate) : List Candidate :=
  if t.val.length < u32 (t.getValOff i+2) then l
  else t.mergeWords maxResults (load16 t.val (t.getValOff i)) (u32 (t.getValOff i+2)) l

theorem scan_succ (query : Bytes) (n i : ℕ) : t.scan query maxResults (n+1) i l =
    if t.Matches query i then t.scan query maxResults n (i+1) (t.entryWords maxResults i l)
    else l := by
  rw [scan, entryWords]
  by_cases hm : t.Matches query i
  · rw [if_pos hm]
    obtain ⟨hpos, hkey, hlen, hslice⟩ := hm
    simp only [key_pos_eq, if_neg (not_lt.mpr hpos), if_neg (not_lt.mpr hkey),
      if_neg (not_lt.mpr hlen), hslice, ne_eq, not_true_eq_false, if_false]
    split <;> rfl
  · rw [if_neg hm]
    simp only [key_pos_eq]
    by_cases hpos : t.dat.length < u32 (t.keyPos i+1)
    · rw [if_pos hpos]
    · by_cases hkey : t.dat.length < u32 (u32 (t.keyPos i+1)+byteAt t.dat (t.keyPos i))
      · rw [if_neg hpos, if_pos hkey]
      · by_cases hlen : byteAt t.dat (t.keyPos i) < query.length
        · rw [if_neg hpos, if_neg hkey, if_pos hlen]
        · rw [if_neg hpos, if_neg hkey, if_neg hlen, if_pos]
          exact fun hslice => hm ⟨not_lt.mp hpos, not_lt.mp hkey, not_lt.mp hlen, hslice⟩

variable {t}

theorem key_pos_lt (i : ℕ) (hkey : ¬ t.KeyWraps i) : u32 (t.keyPos i+1) = t.keyPos i+1 := by
  apply u32_of_lt
  have hlt : t.keyPos i < 4294967296 := Nat.mod_lt _ (by decide)
  rw [KeyWraps] at hkey
  omega

def entryChecked (t : TrieSearcher) (maxResults i : ℕ) (r : ℕ × List Slot) :
    Option (ℕ × List Slot) :=
  if t.val.length < u32 (t.getValOff i+2) then some r
  else do
    let wordCount ← read16 t.val (t.getValOff i)
    t.mergeWordsChecked maxResults wordCount (u32 (t.getValOff i+2)) r

theorem scan_checked_succ (h : t.Loaded) (query : Bytes) (n i : ℕ) (hi : i < t.keyCount)
    (hkey : ¬ t.KeyWraps i) : t.scanChecked query maxResults (n+1) i r =
      if t.Matches query i then
        (t.entryChecked maxResults i r).bind (t.scanChecked query maxResults n (i+1))
      else some r := by
  have hdat := h.dat
  have hpos := key_pos_lt i hkey
  have hbyte := byteAt_lt t.dat (t.keyPos i)
  obtain ⟨hoff, hfits⟩ := entry_bound h i hi
  have hval : read32 t.dat (u32 (entryOff i+4)) = some (t.getValOff i) := by
    rw [u32_of_lt _ (by omega), read32, if_pos (by omega), hoff, getValOff]
  rw [scanChecked, read_key_off h i hi]
  simp only [Option.bind_eq_bind, Option.bind_some, key_pos_eq, hpos]
  by_cases hin : t.dat.length < t.keyPos i+1
  · rw [if_pos hin, if_neg]
    rintro ⟨hle, -⟩
    omega
  · have hend : u32 (t.keyPos i+1+byteAt t.dat (t.keyPos i)) =
        t.keyPos i+1+byteAt t.dat (t.keyPos i) := u32_of_lt _ (by omega)
    rw [if_neg hin, readByte, if_pos (by omega), Option.bind_some, hend]
    by_cases hlong : t.dat.length < t.keyPos i+1+byteAt t.dat (t.keyPos i)
    · rw [if_pos hlong, if_neg]
      rintro ⟨-, hle, -⟩
      rw [hpos, hend] at hle
      omega
    · rw [if_neg hlong]
      by_cases hshort : byteAt t.dat (t.keyPos i) < query.length
      · rw [if_pos hshort, if_neg]
        rintro ⟨-, -, hle, -⟩
        omega
      · rw [if_neg hshort, readBytes, if_pos (by omega), Option.bind_some]
        by_cases hslice : slice t.dat (t.keyPos i+1) query.length = query
        · have hm : t.Matches query i :=
            ⟨by omega, by rw [hpos, hend]; omega, by omega, by rw [hpos]; exact hslice⟩
          rw [if_neg (not_not.mpr hslice), hval, Option.bind_some, if_pos hm, entryChecked]
          by_cases hskip : t.val.length < u32 (t.getValOff i+2)
          · rw [if_pos hskip, if_pos hskip, Option.bind_some]
          · rw [if_neg hskip, if_neg hskip, Option.bind_eq_bind, Option.bind_assoc]
        · rw [if_pos hslice, if_neg]
          rintro ⟨-, -, -, heq⟩
          rw [hpos] at heq
          exact hslice heq

theorem entry_checked (hval : t.val.length < 2147483648) (hout : maxResults ≤ out.length)
    (hpos : 0 < maxResults) (i : ℕ) (hwrap : ¬ t.ValWraps i) (h : Stores maxResults out r l) :
    ∃ r', t.entryChecked maxResults i r = some r' ∧
      Stores maxResults out r' (t.entryWords maxResults i l) := by
  rw [entryChecked, entryWords]
  by_cases hskip : t.val.length < u32 (t.getValOff i+2)
  · rw [if_pos hskip, if_pos hskip]
    exact ⟨r, rfl, h⟩
  · have hoff : t.getValOff i < 4294967296 := load32_lt _ _
    have hsum : u32 (t.getValOff i+2) = t.getValOff i+2 := by
      apply u32_of_lt
      by_contra hge
      exact hwrap ⟨by omega, not_lt.mp hskip⟩
    rw [if_neg hskip, if_neg hskip, hsum]
    rw [hsum] at hskip
    rw [read16, if_pos (not_lt.mp hskip)]
    exact merge_words_checked hval hout hpos _ _ (not_lt.mp hskip) h

theorem entry_faults (hval : t.val.length < 2147483648) (i : ℕ) (hwrap : t.ValWraps i) :
    t.entryChecked maxResults i r = none := by
  obtain ⟨hoff, hend⟩ := hwrap
  rw [entryChecked, if_neg (not_lt.mpr hend), read16, if_neg]
  · rfl
  · omega

theorem scan_key_faults (h : t.Loaded) (query : Bytes) (n i : ℕ) (hi : i < t.keyCount)
    (hkey : t.KeyWraps i) : t.scanChecked query maxResults (n+1) i r = none := by
  have hdat := h.dat
  rw [KeyWraps] at hkey
  rw [scanChecked, read_key_off h i hi]
  simp only [Option.bind_eq_bind, Option.bind_some, key_pos_eq, hkey]
  rw [show u32 (4294967295+1) = 0 from rfl, if_neg (Nat.not_lt_zero _), readByte, if_neg (by omega)]
  rfl

/-- A scan that comes to no entry that wraps reads inside, and finds what the search finds. -/
theorem scan_checked (h : t.Loaded) (hout : maxResults ≤ out.length) (hpos : 0 < maxResults)
    (query : Bytes) (n i : ℕ) (hn : i+n = t.keyCount)
    (hwraps : ∀ j, t.Visits query i j → ¬ t.Wraps query j) (hs : Stores maxResults out r l) :
    ∃ r', t.scanChecked query maxResults n i r = some r' ∧
      Stores maxResults out r' (t.scan query maxResults n i l) := by
  induction n generalizing i r l with
  | zero => exact ⟨r, rfl, hs⟩
  | succ n ih =>
    have hi : i < t.keyCount := by omega
    have hself := hwraps i (t.visits_self query i hi)
    rw [scan_checked_succ h query n i hi (fun hk => hself (.inl hk)), scan_succ]
    by_cases hm : t.Matches query i
    · obtain ⟨r', hr', hs'⟩ := entry_checked h.val hout hpos i (fun hv => hself (.inr ⟨hm, hv⟩)) hs
      rw [if_pos hm, if_pos hm, hr', Option.bind_some]
      exact ih (i+1) (by omega) (fun j hj => hwraps j (t.visits_succ query i j hm hj)) hs'
    · rw [if_neg hm, if_neg hm]
      exact ⟨r, rfl, hs⟩

theorem scan_faults (h : t.Loaded) (hout : maxResults ≤ out.length) (hpos : 0 < maxResults)
    (query : Bytes) (n i j : ℕ) (hn : i+n = t.keyCount) (hj : t.Visits query i j)
    (hwraps : t.Wraps query j) (hs : Stores maxResults out r l) :
    t.scanChecked query maxResults n i r = none := by
  induction n generalizing i r l with
  | zero =>
    have hlo := hj.1
    have hhi := hj.2.1
    omega
  | succ n ih =>
    have hi : i < t.keyCount := by omega
    by_cases hkey : t.KeyWraps i
    · exact scan_key_faults h query n i hi hkey
    · rw [scan_checked_succ h query n i hi hkey]
      by_cases hval : t.Matches query i ∧ t.ValWraps i
      · rw [if_pos hval.1, entry_faults h.val i hval.2]
        rfl
      · rcases t.visits_cases query i j hj with rfl | ⟨hm, hj'⟩
        · exact absurd hwraps (fun hor => hor.elim hkey hval)
        · obtain ⟨r', hr', hs'⟩ := entry_checked h.val hout hpos i (fun hv => hval ⟨hm, hv⟩) hs
          rw [if_pos hm, hr', Option.bind_some]
          exact ih (i+1) (by omega) hj' hs'

variable (t)

/-- The search reads inside the buffers and writes inside the results; all of them are
terminated. -/
def Safe (query : Bytes) (maxResults : ℕ) (out : List Slot) : Prop :=
  ∃ n out', t.searchChecked query maxResults out = some (n, out') ∧ n ≤ maxResults ∧
    (∀ s ∈ out'.take n, 0 ∈ s.word) ∧ out'.drop maxResults = out.drop maxResults ∧
    out'.length = out.length

def first (query : Bytes) : ℕ := t.lowerBound query t.keyCount 0 t.keyCount

theorem lower_bound_le (query : Bytes) (n lo hi : ℕ) (h : lo ≤ hi) :
    t.lowerBound query n lo hi ≤ hi := by
  induction n generalizing lo hi with
  | zero => exact h
  | succ n ih =>
    rw [lowerBound]
    by_cases hlt : lo < hi
    · rw [if_pos hlt]
      dsimp only
      split
      · exact ih _ _ (by omega)
      · exact le_trans (ih _ _ (by omega)) (by omega)
    · rw [if_neg hlt]
      exact h

theorem search_eq_scan (h : t.Loaded) (query : Bytes) (hq : ¬ (query = [] ∨ maxResults = 0)) :
    t.searchChecked query maxResults out =
      t.scanChecked query maxResults (t.keyCount-t.first query) (t.first query) (0, out) := by
  rw [searchChecked, if_neg hq, lower_bound_checked h query _ _ _ le_rfl]
  rfl

theorem stores_nil (out : List Slot) : Stores maxResults out (0, out) [] :=
  ⟨rfl, Nat.zero_le _, rfl, fun _ hs => absurd hs List.not_mem_nil, rfl, rfl⟩

theorem search_checked (h : t.Loaded) (query : Bytes) (hout : maxResults ≤ out.length)
    (hwraps : query = [] ∨ maxResults = 0 ∨
      ∀ i, t.Visits query (t.first query) i → ¬ t.Wraps query i) :
    ∃ r, t.searchChecked query maxResults out = some r ∧
      Stores maxResults out r (t.search query maxResults) := by
  by_cases hq : query = [] ∨ maxResults = 0
  · rw [searchChecked, if_pos hq, search, if_pos hq]
    exact ⟨_, rfl, stores_nil out⟩
  · have hnot := not_or.mp hq
    rw [search_eq_scan t h query hq, search, if_neg hq]
    have hlo := t.lower_bound_le query t.keyCount 0 t.keyCount (Nat.zero_le _)
    exact scan_checked h hout (Nat.pos_of_ne_zero hnot.2) query _ _
      (by rw [first]; omega) ((hwraps.resolve_left hnot.1).resolve_left hnot.2) (stores_nil out)

/-- For dictionaries that the loader accepts, the search stays inside exactly where it
comes to no entry whose offsets wrap. -/
theorem search_safe_iff (dat val : Bytes) (t : TrieSearcher)
    (hload : loadFromMemory dat val = some t) (hdat : dat.length < 2147483648)
    (hval : val.length < 2147483648) (query : Bytes) (maxResults : ℕ) (out : List Slot)
    (hout : maxResults ≤ out.length) : t.Safe query maxResults out ↔
      (query = [] ∨ maxResults = 0 ∨
        ∀ i, t.Visits query (t.first query) i → ¬ t.Wraps query i) := by
  have h := load_loaded dat val t hload hdat hval
  constructor
  · rintro ⟨n, out', hsearch, -⟩
    by_contra hwraps
    simp only [not_or, not_forall, not_not] at hwraps
    obtain ⟨hq, hmax, i, hvisits, hwrap⟩ := hwraps
    have hlo := t.lower_bound_le query t.keyCount 0 t.keyCount (Nat.zero_le _)
    rw [search_eq_scan t h query (not_or.mpr ⟨hq, hmax⟩), scan_faults h hout
      (Nat.pos_of_ne_zero hmax) query _ _ i (by rw [first]; omega) hvisits hwrap
      (stores_nil out)] at hsearch
    cases hsearch
  · intro hwraps
    obtain ⟨r, hsearch, hs⟩ := t.search_checked h query hout hwraps
    exact ⟨r.1, r.2, hsearch, hs.bound, hs.terminated, hs.frame, hs.length⟩

def blankSlot : Slot := ⟨List.replicate 32 0, 0, 0, rfl⟩

def oneKey (keyOff valOff : ℕ) : Bytes :=
  kMagic++le32 2++le32 1++le32 24++le32 keyOff++le32 valOff++[1, 0x61]

def oneWord : Bytes := le16 1++le16 5++[0, 1, 0x78]

theorem one_key_safe :
    TrieSearcher.Safe ⟨oneKey 0 0, oneWord, 1, 24, 2⟩ [0x61] 1 [blankSlot] := by
  refine (search_safe_iff (oneKey 0 0) oneWord _ rfl (by decide) (by decide) [0x61] 1 [blankSlot]
    le_rfl).mpr (.inr (.inr ?_))
  rintro i ⟨-, hi, -⟩
  obtain rfl : i = 0 := Nat.lt_one_iff.mp hi
  rintro (hkey | ⟨-, hval, -⟩)
  · revert hkey
    rw [KeyWraps]
    decide
  · revert hval
    decide

/-- The offset of the only key is such that its place is the last number: the guard sees
the sum 0, and the length of the key is read there. The record of the other dictionary
ends behind the last number. -/
theorem offset_wraps :
    (∃ t, loadFromMemory (oneKey 4294967271 0) oneWord = some t ∧
      ¬ t.Safe [0x61] 1 [blankSlot]) ∧
    ∃ t, loadFromMemory (oneKey 0 4294967294) oneWord = some t ∧
      ¬ t.Safe [0x61] 1 [blankSlot] := by
  have hkey : TrieSearcher.searchChecked ⟨oneKey 4294967271 0, oneWord, 1, 24, 2⟩ [0x61] 1
      [blankSlot] = none := by decide +kernel
  have hval : TrieSearcher.searchChecked ⟨oneKey 0 4294967294, oneWord, 1, 24, 2⟩ [0x61] 1
      [blankSlot] = none := by decide +kernel
  constructor
  · refine ⟨⟨oneKey 4294967271 0, oneWord, 1, 24, 2⟩, rfl, ?_⟩
    rintro ⟨n, out', hsearch, -⟩
    cases hkey.symm.trans hsearch
  · refine ⟨⟨oneKey 0 4294967294, oneWord, 1, 24, 2⟩, rfl, ?_⟩
    rintro ⟨n, out', hsearch, -⟩
    cases hval.symm.trans hsearch

end TrieSearcher

end MokyaLora
