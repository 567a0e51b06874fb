import MokyaLora.ImeSearch
import MokyaLora.LruLookup
import MokyaLora.LruSerial
import MokyaLora.Lib.Inplace

/-!
# Hits of the cache in front of the candidates

`prepend_lru_candidates` works in place on the two arrays of candidates and prefix
lengths: it closes the gaps that repeated words leave, moves the rest up and writes the
hits to the front.
-/

set_option autoImplicit false

namespace MokyaLora.Ime
open Lib.Fields Lib.Inplace Lib.Ranked LruCache

/-- `candidates_`, `candidates_prefix_keys_` and `cand_count_`. -/
structure CandidateArrays where
  candidates : ℕ → Candidate
  prefixKeys : ℕ → ℕ
  candCount : ℕ

namespace CandidateArrays

variable (a : CandidateArrays)

def copySlot (dst src : ℕ) : CandidateArrays :=
  { a with
    candidates := Function.update a.candidates dst (a.candidates src)
    prefixKeys := Function.update a.prefixKeys dst (a.prefixKeys src) }

def writeSlot (dst : ℕ) (p : Candidate × ℕ) : CandidateArrays :=
  { a with
    candidates := Function.update a.candidates dst p.1
    prefixKeys := Function.update a.prefixKeys dst p.2 }

/-- Candidate `i` and those behind it; `dst` counts the ones that no hit repeats. -/
def compact (hits : List (Candidate × ℕ)) :
    ℕ → ℕ → ℕ → CandidateArrays → CandidateArrays × ℕ
  | 0, _, dst, a => (a, dst)
  | n+1, i, dst, a =>
    if listed hits (a.candidates i) then compact hits n (i+1) dst a
    else compact hits n (i+1) (dst+1) (if dst ≠ i then a.copySlot dst i else a)

def shiftTail (lruN : ℕ) : ℕ → CandidateArrays → CandidateArrays
  | 0, a => a
  | i+1, a => shiftTail lruN i (a.copySlot (lruN+i) i)

def writeHits : ℕ → List (Candidate × ℕ) → CandidateArrays → CandidateArrays
  | _, [], a => a
  | i, hit::hits, a => writeHits (i+1) hits (a.writeSlot i hit)

def spliceHits (hits : List (Candidate × ℕ)) : CandidateArrays :=
  if hits = [] then a
  else
    let (b, kept) := compact hits a.candCount 0 0 a
    let room := kMaxCandidates-hits.length
    let dictKeep := if room < kept then room else kept
    { writeHits 0 hits (shiftTail hits.length dictKeep b) with
      candCount := hits.length+dictKeep }

def slot (i : ℕ) : Candidate × ℕ := (a.candidates i, a.prefixKeys i)

def contents : List (Candidate × ℕ) := cells a.slot 0 a.candCount

end CandidateArrays

def ImeLogic.prependLruArrays (s : ImeLogic) (a : CandidateArrays) : CandidateArrays :=
  if s.mode ≠ .smartZh ∨ s.keySeqLen = 0 then a
  else a.spliceHits (s.lru.lookup s.keys (some s.hints) kMaxCandidates)

namespace CandidateArrays

theorem copy_slot (a : CandidateArrays) (dst src : ℕ) :
    (a.copySlot dst src).slot = Function.update a.slot dst (a.slot src) := by
  ext i : 1
  by_cases h : i = dst <;> simp [slot, copySlot, Function.update, h]

theorem write_slot (a : CandidateArrays) (dst : ℕ) (p : Candidate × ℕ) :
    (a.writeSlot dst p).slot = Function.update a.slot dst p := by
  ext i : 1
  by_cases h : i = dst <;> simp [slot, writeSlot, Function.update, h]

theorem compact_slots (hits : List (Candidate × ℕ)) (n i dst : ℕ) (a : CandidateArrays) :
    ((compact hits n i dst a).1.slot, (compact hits n i dst a).2) =
      keep (fun p => listed hits p.1) n i dst a.slot := by
  induction n generalizing i dst a with
  | zero => rfl
  | succ n ih =>
    rw [compact, keep]
    cases hd : listed hits (a.slot i).1 with
    | true =>
      have hd' : listed hits (a.candidates i) = true := hd
      rw [if_pos hd', if_pos rfl, ih]
    | false =>
      have hd' : ¬ listed hits (a.candidates i) = true := by simpa [slot] using hd
      have hcopy : (if dst ≠ i then a.copySlot dst i else a).slot =
          if dst ≠ i then Function.update a.slot dst (a.slot i) else a.slot := by
        by_cases heq : dst = i <;> simp [heq, copy_slot]
      rw [if_neg hd', if_neg Bool.false_ne_true, ih, hcopy]

theorem move_slots (lruN n : ℕ) (a : CandidateArrays) :
    (shiftTail lruN n a).slot = moveUp lruN n a.slot := by
  induction n generalizing a with
  | zero => rfl
  | succ n ih => rw [shiftTail, moveUp, ih, copy_slot]

theorem write_slots (i : ℕ) (hits : List (Candidate × ℕ)) (a : CandidateArrays) :
    (writeHits i hits a).slot = writeFrom i hits a.slot := by
  induction hits generalizing i a with
  | nil => rfl
  | cons hit hits ih => rw [writeHits, writeFrom, ih, write_slot]

theorem contents_splice (a : CandidateArrays) (hits : List (Candidate × ℕ)) (hne : hits ≠ []) :
    (a.spliceHits hits).contents =
      hits++(a.contents.filter (fun p => !listed hits p.1)).take (kMaxCandidates-hits.length) := by
  have hkeep := compact_slots hits a.candCount 0 0 a
  have hcount := keep_cells (fun p => listed hits p.1) a.candCount 0 0 a.slot le_rfl
  rw [← hkeep] at hcount
  have hkept : (compact hits a.candCount 0 0 a).2 =
      (a.contents.filter (fun p => !listed hits p.1)).length := by
    simpa [contents] using congrArg List.length hcount
  have hsplice (m : ℕ) (hm : m ≤ (compact hits a.candCount 0 0 a).2) :
      cells (writeHits 0 hits (shiftTail hits.length m (compact hits a.candCount 0 0 a).1)).slot 0
        (hits.length+m) = hits++(a.contents.filter (fun p => !listed hits p.1)).take m := by
    have hcells := splice_cells (fun p => listed hits p.1) hits a.candCount m a.slot
      (by rw [← hkeep]; exact hm)
    rwa [← hkeep, ← move_slots, ← write_slots] at hcells
  rw [spliceHits, if_neg hne]
  by_cases hroom : kMaxCandidates-hits.length < (compact hits a.candCount 0 0 a).2
  · simp only [hroom, if_true]
    exact hsplice _ (le_of_lt hroom)
  · simp only [hroom, if_false]
    rw [List.take_of_length_le (by omega), ← List.take_length (l := a.contents.filter _), ← hkept]
    exact hsplice _ le_rfl

/-- The list model of the search is what the arrays hold. -/
theorem prepend_refines (s : ImeLogic) (a : CandidateArrays) (h : a.contents = s.candidates) :
    (s.prependLruArrays a).contents = s.prependLruCandidates.candidates := by
  by_cases hno : s.mode ≠ .smartZh ∨ s.keySeqLen = 0
  · rw [ImeLogic.prependLruArrays, ImeLogic.prependLruCandidates, if_pos hno, if_pos hno, h]
  · rw [ImeLogic.prependLruArrays, ImeLogic.prependLruCandidates, if_neg hno, if_neg hno]
    by_cases hne : s.lru.lookup s.keys (some s.hints) kMaxCandidates = []
    · simp [hne, spliceHits, h]
    · rw [contents_splice a _ hne, h]
      simp [hne]

end CandidateArrays

theorem hits_distinct (c : LruCache) (userKeys : Bytes) (hints : Option Bytes) (maxResults : ℕ)
    (h : ∀ e ∈ c.entries, (0 : UInt8) ∉ e.wordBytes) :
    ((c.lookup userKeys hints maxResults).map (fun p => p.1.word)).Nodup := by
  have happart := fold_keepNew_apart sameWord maxResults
    (sortMatches (c.entries.filter (fun e => matchesKeys e userKeys hints))) [] .nil
  have hmem : ∀ e ∈ dedupMatches maxResults
      (sortMatches (c.entries.filter (fun e => matchesKeys e userKeys hints))), e ∈ c.entries := by
    intro e he
    have hsort := (dedup_matches_spec maxResults _).2 he
    exact List.mem_of_mem_filter ((sort_matches_mem _ e).mp hsort)
  rw [lookup, List.map_map, List.Nodup, List.pairwise_map]
  apply List.Pairwise.imp_of_mem _ happart
  intro o e ho he hsame heq
  have hwo := h o (hmem o ho)
  have hwe := h e (hmem e he)
  rw [same_word_eq o e hwo hwe, decide_eq_false_iff_not] at hsame
  apply hsame
  simpa [emit, Candidate.ofBytes, cstr_self _ hwo, cstr_self _ hwe] using heq.symm

def ImeLogic.lruHits (s : ImeLogic) : List (Candidate × ℕ) :=
  if s.mode ≠ .smartZh ∨ s.keySeqLen = 0 then []
  else s.lru.lookup s.keys (some s.hints) kMaxCandidates

theorem lru_hits_length (s : ImeLogic) : s.lruHits.length ≤ kMaxCandidates := by
  by_cases hno : s.mode ≠ .smartZh ∨ s.keySeqLen = 0
  · simp [ImeLogic.lruHits, hno]
  · rw [ImeLogic.lruHits, if_neg hno]
    exact (lookup_spec s.lru s.keys (some s.hints) kMaxCandidates).1

theorem lru_hits_distinct (s : ImeLogic) (h : ∀ e ∈ s.lru.entries, (0 : UInt8) ∉ e.wordBytes) :
    (s.lruHits.map (fun p => p.1.word)).Nodup := by
  by_cases hno : s.mode ≠ .smartZh ∨ s.keySeqLen = 0
  · simp [ImeLogic.lruHits, hno]
  · rw [ImeLogic.lruHits, if_neg hno]
    exact hits_distinct s.lru s.keys (some s.hints) kMaxCandidates h

theorem contents_prepend (s : ImeLogic) (a : CandidateArrays) (hcount : a.candCount ≤ kMaxCandidates) :
    (s.prependLruArrays a).contents =
      (s.lruHits++a.contents.filter (fun p => !listed s.lruHits p.1)).take kMaxCandidates := by
  have hlen := lru_hits_length s
  have hall : a.contents.filter (fun _ => true) = a.contents := List.filter_true _
  have hfit : a.contents.length ≤ kMaxCandidates := by
    simpa [CandidateArrays.contents] using hcount
  rw [ImeLogic.prependLruArrays, ImeLogic.lruHits] at *
  by_cases hno : s.mode ≠ .smartZh ∨ s.keySeqLen = 0
  · simp [hno, listed, List.take_of_length_le hfit]
  · rw [if_neg hno] at hlen ⊢
    rw [if_neg hno]
    by_cases hne : s.lru.lookup s.keys (some s.hints) kMaxCandidates = []
    · simp [hne, CandidateArrays.spliceHits, listed, List.take_of_length_le hfit]
    · rw [CandidateArrays.contents_splice a _ hne, List.take_append, List.take_of_length_le hlen]

/-- Whatever the arrays held, the hits stand in front in their order, behind them what
they do not repeat, and a hundred at most; where the cache holds C strings and the words
were distinct, they still are. -/
theorem lru_splice (s : ImeLogic) (a : CandidateArrays) (hcount : a.candCount ≤ kMaxCandidates)
    (hdistinct : (a.contents.map (fun p => p.1.word)).Nodup) :
    (s.prependLruArrays a).contents =
      (s.lruHits++a.contents.filter (fun p => !listed s.lruHits p.1)).take kMaxCandidates ∧
    ((∀ e ∈ s.lru.entries, (0 : UInt8) ∉ e.wordBytes) →
      ((s.prependLruArrays a).contents.map (fun p => p.1.word)).Nodup) := by
  have hcontents := contents_prepend s a hcount
  refine ⟨hcontents, ?_⟩
  intro htexts
  rw [hcontents, List.map_take]
  apply List.Nodup.sublist (List.take_sublist _ _)
  rw [List.map_append, List.nodup_append]
  refine ⟨lru_hits_distinct s htexts, hdistinct.sublist (List.filter_sublist.map _), ?_⟩
  intro w hw v hv heq
  obtain ⟨p, hp, rfl⟩ := List.mem_map.mp hw
  obtain ⟨q, hq, rfl⟩ := List.mem_map.mp hv
  have hnew : listed s.lruHits q.1 = false := by simpa using (List.mem_filter.mp hq).2
  rw [listed, List.any_eq_false] at hnew
  exact hnew p hp (by simpa using heq)

def twoWords : CandidateArrays where
  candidates i := if i = 0 then ⟨[0xE5, 0xB7, 0xB4], 9, 1, by decide⟩
    else ⟨[0xE5, 0x85, 0xAB], 7, 1, by decide⟩
  prefixKeys _ := 1
  candCount := 2

def learnedEight : LruCache := empty.upsert [0x21] 0xFF 1 [0xE5, 0x85, 0xAB] 10

def typed (key : UInt8) (lru : LruCache) : ImeLogic :=
  { ImeLogic.init with
    keySeq := fun i => if i = 0 then key else 0
    keySeqLen := 1
    phonemeHint := fun _ => 0xFF
    lru := lru }

theorem lru_splice_eight :
    (((typed 0x21 learnedEight).prependLruArrays twoWords).contents.map (fun p => p.1.word)) =
      [[0xE5, 0x85, 0xAB], [0xE5, 0xB7, 0xB4]] ∧
    (((typed 0x21 learnedEight).prependLruArrays twoWords).contents.map
      (fun p => p.1.word)).Nodup :=
  ⟨by decide +kernel,
    (lru_splice (typed 0x21 learnedEight) twoWords (by decide) (by decide +kernel)).2
      (by decide +kernel)⟩

/-- Two entries of one key whose words go on behind a NUL. -/
def nulWords : LruCache :=
  ((empty.upsert [0x21] 0xFF 1 [0x61, 0x00, 0x62] 10).upsert [0x21] 0xFF 1
    [0x61, 0x00, 0x62, 0x63] 20)

/-- An image with such words is accepted, and both are spliced in as one word. -/
theorem nul_words_repeat :
    empty.deserialize nulWords.image = (nulWords, true) ∧
    ¬ (((typed 0x21 nulWords).prependLruArrays twoWords).contents.map
      (fun p => p.1.word)).Nodup := by
  refine ⟨?_, by decide +kernel⟩
  simpa using deserialize_image nulWords empty []

end MokyaLora.Ime
