import MokyaLora.ImeSnapshot

/-!
# The full list of candidates that the test host reads

`g_ime_cand_full` lies behind a counter of its own. All its hundred slots are written at
every refresh, the ones behind the last candidate with an empty string.
-/

set_option autoImplicit false

namespace MokyaLora.ImeSnapshot
open Lib.Fields Lib.Memory Lib.Seqlock Lib.Schedule

/-- The words of `read_all_candidates` in the memory itself. -/
def candidatesAt (mem : Buffer) : ℤ × List Bytes :=
  let count := signed (word mem 8)
  (count, (List.range (min count.toNat imeCandFullMax)).map (fun i => cString mem (16+24*i) 24))

theorem read_candidates_blob (blob : Bytes) (h : blob.length = 2416) :
    readAllCandidates blob = candidatesAt (fun i => blob.getD i 0) := by
  simp only [readAllCandidates, candidatesAt, word_blob]
  congr 1
  refine List.map_congr_left (fun i hi => ?_)
  rw [List.mem_range, imeCandFullMax] at hi
  rw [Nat.mul_comm i 24, c_string_blob _ _ _ (by omega)]

theorem candidates_same {a b : Buffer} (h : SameBody 2416 a b) :
    candidatesAt a = candidatesAt b := by
  have hcount : word a 8 = word b 8 := by
    rw [word, same_segment h 8 4 (by decide) (by decide), word]
  simp only [candidatesAt, hcount]
  congr 1
  refine List.map_congr_left (fun i hi => ?_)
  rw [List.mem_range, imeCandFullMax] at hi
  rw [cString, same_segment h _ 24 (by omega) (by omega), cString]

theorem full_word_of_lt (f : Full) (i : ℕ) (hi : i < (f.words.take imeCandFullMax).length) :
    fullWord f i = strncpy 23 (f.words.take imeCandFullMax)[i] := by
  rw [fullWord, List.getD_eq_getElem?_getD, List.getElem?_eq_getElem hi, Option.getD_some]

theorem full_body_shows (mem : Buffer) (f : Full) :
    candidatesAt (applyAll mem (fullBody f)) =
      (((min f.words.length imeCandFullMax : ℕ) : ℤ),
        (f.words.take imeCandFullMax).map (strncpy 23)) := by
  have hparts : fullBody f = [⟨8, le32 (min f.words.length imeCandFullMax)⟩]++
      ([⟨12, le32 f.selected.toUInt32.toNat⟩]++tableStores 16 24 imeCandFullMax (fullWord f)) := rfl
  have htable := table_stores_within 16 24 imeCandFullMax _ (full_word_length f)
  have hcount : word (applyAll mem (fullBody f)) 8 = min f.words.length imeCandFullMax := by
    have hsmall : min f.words.length imeCandFullMax < 4294967296 :=
      lt_of_le_of_lt (Nat.min_le_right _ _) (by decide)
    rw [hparts, apply_all_append, apply_all_append,
      word_within _ _ _ _ _ htable (.inl (by decide)),
      word_within _ _ _ _ _ (within_word 12 _) (.inl (by decide))]
    exact (word_store mem 8 _).trans (Nat.mod_eq_of_lt hsmall)
  have hword : ∀ i < imeCandFullMax,
      cString (applyAll mem (fullBody f)) (16+24*i) 24 = fullWord f i := by
    intro i hi
    rw [hparts, apply_all_append, apply_all_append]
    exact table_string _ 16 24 imeCandFullMax _ (full_word_length f) (fun i => strncpy_ne 23 _) i hi
  have hlen : (f.words.take imeCandFullMax).length = min f.words.length imeCandFullMax := by
    rw [List.length_take, Nat.min_comm]
  have hslots : min f.words.length imeCandFullMax ≤ 100 := Nat.min_le_right _ _
  rw [candidatesAt, hcount, signed_small _ (by omega), Int.toNat_natCast,
    Nat.min_eq_left (Nat.min_le_right f.words.length imeCandFullMax)]
  congr 1
  apply List.ext_getElem
  · rw [List.length_map, List.length_range, List.length_map, hlen]
  · intro i hi _
    simp only [List.length_map, List.length_range] at hi
    simp only [List.getElem_map, List.getElem_range]
    rw [hword i (by omega), full_word_of_lt f i (by omega)]

def FullShows (fs : List Full) (mem : Buffer) : Prop := candidatesAt mem = fullOf fs

theorem full_shows_init : FullShows [] zeroed := by
  have hword : word zeroed 8 = 0 := by
    simp only [word, Lib.Memory.segment]
    decide
  rw [FullShows, candidatesAt, hword]
  rfl

theorem full_shows_body (fs : List Full) (mem : Buffer) (f : Full) :
    FullShows (fs++[f]) (applyAll mem (fullBody f)) := by
  rw [FullShows, fullOf, List.getLast?_append, List.getLast?_singleton, Option.some_or]
  exact full_body_shows mem f

theorem full_shows_same (fs : List Full) (a b : Buffer) (h : SameBody 2416 a b)
    (hs : FullShows fs a) : FullShows fs b := (candidates_same h).symm.trans hs

theorem accepted_words (acts : List (Act Full)) (s : State Full Unit)
    (he : exec (step fullWriter) fullWriter.init acts = some s) (ha : accepts fullWriter s)
    (hbound : s.bumps < s.start+256) :
    s.bumps = s.start ∧ readAllCandidates s.blob = fullOf s.shown := by
  obtain ⟨hshows, hstill⟩ := accepted_shows fullWriter FullShows full_shows_same
    (fun l mem f _ => full_shows_body l mem f) full_shows_init acts s he ha hbound
  have hlen : s.blob.length = 2416 := by
    simp only [accepts, Bool.and_eq_true, beq_iff_eq] at ha
    exact ha.1.1.1
  exact ⟨hstill, (read_candidates_blob s.blob hlen).trans hshows⟩

/-- A list of candidates that the reader accepts within 256 stores into the counter is that of
the last refresh, word for word as far as the slots go, and no refresh began or ended while
it was read. After a refresh a reading that none disturbs is accepted. -/
theorem candidates_accepted (acts : List (Act Full)) (s : State Full Unit)
    (he : exec (step fullWriter) fullWriter.init acts = some s) :
    (accepts fullWriter s → s.bumps < s.start+256 →
      s.bumps = s.start ∧ readAllCandidates s.blob = fullOf s.shown) ∧
    (s.todo = [] → s.published ≠ [] →
      ∃ t, exec (step fullWriter) s (.restart::List.replicate 2416 .read) = some t ∧
        accepts fullWriter t ∧ readAllCandidates t.blob = fullOf s.published) := by
  refine ⟨accepted_words acts s he, fun htodo hpub => ?_⟩
  have hi := inv_exec fullWriter FullShows full_shows_same
    (fun l mem f _ => full_shows_body l mem f) full_shows_init acts s he
  obtain ⟨t, ht, haccepts, hstill, -, hshown⟩ := quiet_accepted fullWriter FullShows hi htodo hpub
  have hwords := accepted_words _ t (exec_trans _ acts _ _ s t he ht) haccepts (by omega)
  exact ⟨t, ht, haccepts, by rw [hwords.2, hshown]⟩

def twoWords : Full := ⟨[[0x61, 0x62], [0x63]], 0⟩

def fullRefresh : List (Act Full) := .render twoWords::List.replicate 108 .store

theorem full_refresh_accepted : ∃ s t, exec (step fullWriter) fullWriter.init fullRefresh = some s ∧
    exec (step fullWriter) s (.restart::List.replicate 2416 .read) = some t ∧
    accepts fullWriter t ∧ readAllCandidates t.blob = (2, [[0x61, 0x62], [0x63]]) := by
  have hrun : (exec (step fullWriter) fullWriter.init fullRefresh).map
      (fun s => (s.todo.isEmpty, s.published)) = some (true, [twoWords]) := by decide +kernel
  obtain ⟨s, hs, hfields⟩ := Option.map_eq_some_iff.mp hrun
  obtain ⟨htodo, hpublished⟩ := Prod.mk.inj hfields
  obtain ⟨t, ht, haccepts, hread⟩ := (candidates_accepted fullRefresh s hs).2
    (List.isEmpty_iff.mp htodo) (by rw [hpublished]; exact List.cons_ne_nil _ _)
  rw [hpublished] at hread
  exact ⟨s, t, hs, ht, haccepts, hread⟩

end MokyaLora.ImeSnapshot
