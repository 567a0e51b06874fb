import MokyaLora.Lib.Seqlock
import MokyaLora.Lib.Utf8

/-!
# The snapshot that the test host reads

`render_candidates` of `ime_view.c` mirrors what the view has just taken over from the
engine into `ime_view_debug_t` at a fixed address, and the candidates into
`g_ime_cand_full`, both behind a sequence counter. `read_snapshot` and
`read_all_candidates` of `ime_text_test.py` read the two blocks over SWD while the core runs.
-/

set_option autoImplicit false

namespace MokyaLora.ImeSnapshot
open Lib.Fields Lib.Memory Lib.Seqlock Lib.Schedule Lib.Utf8

def imeViewDebugMagic : ℕ := 0xEEED0003
def imeCandFullMagic : ℕ := 0xECA11100
def imeCandFullMax : ℕ := 100

/-- What the accessors return under the lock: the text, the pending string, and the words
of the candidates or of the picker's cells. -/
structure Engine where
  text : Bytes
  cursorBytes : Int32
  pending : Bytes
  words : List Bytes
  selected : Int32
  mode : UInt8
  deriving DecidableEq

/-- The snapshot buffers of the view; a buffer that holds a C string is that string. -/
structure View where
  text : Bytes
  cursorBytes : Int32
  pending : Bytes
  cands : List Bytes
  selected : Int32
  mode : UInt8

def strncpy (n : ℕ) (w : Bytes) : Bytes := (w.takeWhile (· ≠ 0)).take n

def snapshot (e : Engine) : View where
  text := e.text.take 2048
  cursorBytes := e.cursorBytes
  pending := (e.pending.take 128).takeWhile (· ≠ 0)
  cands := (e.words.take 40).map (strncpy 47)
  selected := e.selected
  mode := e.mode

def clampBoundary (b : Bytes) : ℕ → ℕ
  | 0 => 0
  | n+1 => if continues (b.getD (n+1) 0) then clampBoundary b n else n+1

/-- At most `max` bytes, cut in front of a character. -/
def clamp (max : ℕ) (b : Bytes) : Bytes := b.take (clampBoundary b (min b.length max))

def viewWord (v : View) (i : ℕ) : Bytes := strncpy 23 (v.cands.getD i [])

def rawStores (v : View) : List Store :=
  (List.range 16).flatMap (fun k =>
    [⟨0xD4+k, [(v.cands.getD 0 []).getD k 0]⟩, ⟨0xE4+k, [(v.cands.getD 1 []).getD k 0]⟩])

/-- The stores of `render_candidates` between the two stores into the counter;
`prevTextLen` is its static variable. -/
def debugBody (prevTextLen : ℤ) (mem : Buffer) (v : View) : List Store :=
  [⟨8, le32 (word mem 8+1)⟩, ⟨0xC, le32 v.cands.length⟩, ⟨0x10, le32 v.selected.toUInt32.toNat⟩]++
  tableStores 0x14 24 8 (viewWord v)++
  rawStores v++
  (if (v.text.length : ℤ) ≠ prevTextLen then [⟨0xF4, le32 (word mem 0xF4+1)⟩] else [])++
  [⟨0xF8, le32 v.text.length⟩, ⟨0xFC, le32 v.cursorBytes.toUInt32.toNat⟩]++
  strStores 0x100 (clamp 95 v.text)++
  [⟨0x160, le32 (clamp 31 v.pending).length⟩]++
  strStores 0x164 (clamp 31 v.pending)++
  [⟨0x184, [v.mode]⟩]

structure Snapshot where
  cand : ℤ
  selected : ℤ
  commit : ℕ
  textLen : ℤ
  text : Bytes
  pending : Bytes
  mode : UInt8
  words : List Bytes
  deriving DecidableEq

def cstr (blob : Bytes) (off maxlen : ℕ) : Bytes := ((blob.drop off).take maxlen).takeWhile (· ≠ 0)

/-- A word unpacked as `<i`. -/
def signed (n : ℕ) : ℤ := if n < 2147483648 then n else n-4294967296

def readSnapshot (blob : Bytes) : Snapshot where
  cand := signed (load32 blob 0xC)
  selected := signed (load32 blob 0x10)
  commit := load32 blob 0xF4
  textLen := signed (load32 blob 0xF8)
  text := cstr blob 0x100 96
  pending := cstr blob 0x164 32
  mode := blob.getD 0x184 0
  words := (List.range 8).map (fun i => cstr blob (0x14+i*24) 24)

def readAllCandidates (blob : Bytes) : ℤ × List Bytes :=
  let count := signed (load32 blob 8)
  (count, (List.range (min count.toNat imeCandFullMax)).map (fun i => cstr blob (16+i*24) 24))

/-- The engine's candidates at the time of the second mirror, which takes no lock. -/
structure Full where
  words : List Bytes
  selected : Int32
  deriving DecidableEq

def fullWord (f : Full) (i : ℕ) : Bytes := strncpy 23 ((f.words.take imeCandFullMax).getD i [])

def fullBody (f : Full) : List Store :=
  [⟨8, le32 (min f.words.length imeCandFullMax)⟩, ⟨12, le32 f.selected.toUInt32.toNat⟩]++
  tableStores 16 24 imeCandFullMax (fullWord f)

theorem clamp_boundary_le (b : Bytes) (n : ℕ) : clampBoundary b n ≤ n := by
  induction n with
  | zero => exact le_refl 0
  | succ n ih =>
    rw [clampBoundary]
    split
    · exact le_trans ih (Nat.le_succ n)
    · exact le_refl _

theorem clamp_length (max : ℕ) (b : Bytes) : (clamp max b).length ≤ max := by
  have := clamp_boundary_le b (min b.length max)
  rw [clamp, List.length_take]
  omega

theorem strncpy_length (n : ℕ) (w : Bytes) : (strncpy n w).length ≤ n := List.length_take_le _ _

theorem strncpy_ne (n : ℕ) (w : Bytes) : ∀ b ∈ strncpy n w, b ≠ 0 := by
  intro b hb
  simpa using List.mem_takeWhile_imp (List.mem_of_mem_take hb)

theorem view_word_length (v : View) (i : ℕ) : (viewWord v i).length < 24 :=
  Nat.lt_succ_of_le (strncpy_length 23 _)

theorem full_word_length (f : Full) (i : ℕ) : (fullWord f i).length < 24 :=
  Nat.lt_succ_of_le (strncpy_length 23 _)

theorem within_word (off n : ℕ) : Within off (off+4) [⟨off, le32 n⟩] := by
  intro w hw
  rw [List.mem_singleton.mp hw]
  simp

theorem within_nil (lo hi : ℕ) : Within lo hi [] := by
  intro w hw
  cases hw

theorem raw_within (v : View) : Within 0xD4 0xF4 (rawStores v) := by
  intro w hw
  obtain ⟨k, hk, hw⟩ := List.mem_flatMap.mp hw
  rw [List.mem_range] at hk
  simp only [List.mem_cons, List.not_mem_nil, or_false] at hw
  rcases hw with rfl | rfl <;> simp only [List.length_singleton] <;> omega

def headPart (mem : Buffer) (v : View) : List Store :=
  [⟨8, le32 (word mem 8+1)⟩, ⟨0xC, le32 v.cands.length⟩, ⟨0x10, le32 v.selected.toUInt32.toNat⟩]

def commitPart (prevTextLen : ℤ) (mem : Buffer) (v : View) : List Store :=
  if (v.text.length : ℤ) ≠ prevTextLen then [⟨0xF4, le32 (word mem 0xF4+1)⟩] else []

def textPart (v : View) : List Store :=
  [⟨0xF8, le32 v.text.length⟩, ⟨0xFC, le32 v.cursorBytes.toUInt32.toNat⟩]++
  strStores 0x100 (clamp 95 v.text)

def pendingPart (v : View) : List Store :=
  [⟨0x160, le32 (clamp 31 v.pending).length⟩]++strStores 0x164 (clamp 31 v.pending)

theorem debug_body_parts (prevTextLen : ℤ) (mem : Buffer) (v : View) :
    debugBody prevTextLen mem v = headPart mem v++(tableStores 0x14 24 8 (viewWord v)++
      (rawStores v++(commitPart prevTextLen mem v++(textPart v++(pendingPart v++
        [⟨0x184, [v.mode]⟩]))))) := by
  simp only [debugBody, headPart, commitPart, textPart, pendingPart, List.append_assoc]

theorem head_within (mem : Buffer) (v : View) : Within 8 0x14 (headPart mem v) := by
  refine within_append (a := [_]) (within_mono (within_word 8 _) (by decide) (by decide)) ?_
  refine within_append (a := [_]) (within_mono (within_word 0xC _) (by decide) (by decide)) ?_
  exact within_mono (within_word 0x10 _) (by decide) (by decide)

theorem words_within (v : View) : Within 0x14 0xD4 (tableStores 0x14 24 8 (viewWord v)) :=
  table_stores_within 0x14 24 8 _ (view_word_length v)

theorem commit_within (prevTextLen : ℤ) (mem : Buffer) (v : View) :
    Within 0xF4 0xF8 (commitPart prevTextLen mem v) := by
  rw [commitPart]
  split
  · exact within_word 0xF4 _
  · exact within_nil _ _

theorem text_within (v : View) : Within 0xF8 0x160 (textPart v) := by
  have hlen := clamp_length 95 v.text
  refine within_append (within_append (a := [_]) (within_mono (within_word 0xF8 _) ?_ ?_) ?_) ?_
  · decide
  · decide
  · exact within_mono (within_word 0xFC _) (by decide) (by decide)
  · exact within_mono (str_stores_within 0x100 _) (by decide) (by omega)

theorem pending_within (v : View) : Within 0x160 0x184 (pendingPart v) := by
  have hlen := clamp_length 31 v.pending
  exact within_append (within_mono (within_word 0x160 _) (by decide) (by decide))
    (within_mono (str_stores_within 0x164 _) (by decide) (by omega))

theorem mode_within (v : View) : Within 0x184 0x185 [⟨0x184, [v.mode]⟩] := by
  intro w hw
  rw [List.mem_singleton.mp hw]
  simp

theorem from_pending (v : View) : Within 0x160 0x185 (pendingPart v++[⟨0x184, [v.mode]⟩]) :=
  within_append (within_mono (pending_within v) (by decide) (by decide))
    (within_mono (mode_within v) (by decide) (by decide))

theorem from_text (v : View) :
    Within 0xF8 0x185 (textPart v++(pendingPart v++[⟨0x184, [v.mode]⟩])) :=
  within_append (within_mono (text_within v) (by decide) (by decide))
    (within_mono (from_pending v) (by decide) (by decide))

theorem from_commit (prevTextLen : ℤ) (mem : Buffer) (v : View) :
    Within 0xF4 0x185
      (commitPart prevTextLen mem v++(textPart v++(pendingPart v++[⟨0x184, [v.mode]⟩]))) :=
  within_append (within_mono (commit_within prevTextLen mem v) (by decide) (by decide))
    (within_mono (from_text v) (by decide) (by decide))

theorem from_raw (prevTextLen : ℤ) (mem : Buffer) (v : View) :
    Within 0xD4 0x185 (rawStores v++
      (commitPart prevTextLen mem v++(textPart v++(pendingPart v++[⟨0x184, [v.mode]⟩])))) :=
  within_append (within_mono (raw_within v) (by decide) (by decide))
    (within_mono (from_commit prevTextLen mem v) (by decide) (by decide))

theorem from_words (prevTextLen : ℤ) (mem : Buffer) (v : View) :
    Within 0x14 0x185 (tableStores 0x14 24 8 (viewWord v)++(rawStores v++
      (commitPart prevTextLen mem v++(textPart v++(pendingPart v++[⟨0x184, [v.mode]⟩]))))) :=
  within_append (within_mono (words_within v) (by decide) (by decide))
    (within_mono (from_raw prevTextLen mem v) (by decide) (by decide))

theorem debug_body_within (prevTextLen : ℤ) (mem : Buffer) (v : View) :
    Within 8 0x185 (debugBody prevTextLen mem v) := by
  rw [debug_body_parts]
  exact within_append (within_mono (head_within mem v) (by decide) (by decide))
    (within_mono (from_words prevTextLen mem v) (by decide) (by decide))

theorem full_body_within (f : Full) : Within 8 2416 (fullBody f) := by
  refine within_append (within_append (a := [_]) (within_mono (within_word 8 _) ?_ ?_) ?_) ?_
  · decide
  · decide
  · exact within_mono (within_word 12 _) (by decide) (by decide)
  · exact within_mono (table_stores_within 16 24 imeCandFullMax _ (full_word_length f)) (by decide)
      (by decide)

def debugWriter : Publisher Engine ℤ where
  magic := imeViewDebugMagic
  size := 400
  locals := -1
  body prevTextLen mem e := debugBody prevTextLen mem (snapshot e)
  next _ e := (snapshot e).text.length
  inside s mem e w hw := (debug_body_within s mem (snapshot e) w hw).1
  room := by decide
  small := by decide

def fullWriter : Publisher Full Unit where
  magic := imeCandFullMagic
  size := 2416
  locals := ()
  body _ _ f := fullBody f
  next _ _ := ()
  inside _ _ f w hw := (full_body_within f w hw).1
  room := by decide
  small := by decide

/-- How often the length of the text has changed; the first refresh counts. -/
def commits : ℤ → List Engine → ℕ
  | _, [] => 0
  | prev, e::es => (if ((snapshot e).text.length : ℤ) ≠ prev then 1 else 0)+
      commits (snapshot e).text.length es

def shownOf (es : List Engine) : Snapshot :=
  match es.getLast? with
  | none => ⟨0, 0, 0, 0, [], [], 0, List.replicate 8 []⟩
  | some e =>
    let v := snapshot e
    { cand := v.cands.length
      selected := v.selected.toInt
      commit := commits (-1) es % 4294967296
      textLen := v.text.length
      text := (clamp 95 v.text).takeWhile (· ≠ 0)
      pending := clamp 31 v.pending
      mode := v.mode
      words := (List.range 8).map (viewWord v) }

def fullOf (fs : List Full) : ℤ × List Bytes :=
  match fs.getLast? with
  | none => (0, [])
  | some f =>
    ((min f.words.length imeCandFullMax : ℕ), (f.words.take imeCandFullMax).map (strncpy 23))

def snapshotAt (mem : Buffer) : Snapshot where
  cand := signed (word mem 0xC)
  selected := signed (word mem 0x10)
  commit := word mem 0xF4
  textLen := signed (word mem 0xF8)
  text := cString mem 0x100 96
  pending := cString mem 0x164 32
  mode := mem 0x184
  words := (List.range 8).map (fun i => cString mem (0x14+24*i) 24)

theorem signed_small (n : ℕ) (h : n < 2147483648) : signed n = n := if_pos h

theorem signed_int (n : Int32) : signed n.toUInt32.toNat = n.toInt := by
  have hint : n.toInt = n.toBitVec.toInt := rfl
  rw [signed, hint, BitVec.toInt_eq_toNat_cond]
  show (if n.toBitVec.toNat < 2147483648 then (n.toBitVec.toNat : ℤ) else _) = _
  split_ifs
  · rfl
  · omega
  · omega
  · rfl

theorem word_blob (blob : Bytes) (off : ℕ) :
    word (fun i => blob.getD i 0) off = load32 blob off := by
  simp [word, load32, load16, byteAt, Lib.Memory.segment, List.range_succ, Nat.add_assoc]

theorem c_string_blob (blob : Bytes) (off n : ℕ) (h : off+n ≤ blob.length) :
    cString (fun i => blob.getD i 0) off n = cstr blob off n := by
  rw [cString, cstr]
  congr 1
  apply List.ext_getElem?
  intro i
  by_cases hi : i < n
  · rw [segment_get _ _ _ _ hi, List.getElem?_take_of_lt hi, List.getElem?_drop,
      List.getD_eq_getElem?_getD, List.getElem?_eq_getElem (by omega), Option.getD_some]
  · rw [List.getElem?_eq_none (by simpa using hi), List.getElem?_eq_none]
    rw [List.length_take]
    omega

theorem read_snapshot_blob (blob : Bytes) (h : blob.length = 400) :
    readSnapshot blob = snapshotAt (fun i => blob.getD i 0) := by
  have hwords : (List.range 8).map (fun i => cstr blob (0x14+i*24) 24) =
      (List.range 8).map (fun i => cString (fun i => blob.getD i 0) (0x14+24*i) 24) := by
    refine List.map_congr_left (fun i hi => ?_)
    rw [List.mem_range] at hi
    rw [Nat.mul_comm i 24, c_string_blob _ _ _ (by omega)]
  simp only [readSnapshot, snapshotAt, word_blob, hwords]
  rw [c_string_blob _ _ _ (by omega), c_string_blob _ _ _ (by omega)]

theorem snapshot_same {a b : Buffer} (h : SameBody 400 a b) : snapshotAt a = snapshotAt b := by
  have hword : ∀ off, 8 ≤ off → off+4 ≤ 400 → word a off = word b off := by
    intro off hlo hhi
    rw [word, same_segment h off 4 hlo hhi, word]
  have hstring : ∀ off n, 8 ≤ off → off+n ≤ 400 → cString a off n = cString b off n := by
    intro off n hlo hhi
    rw [cString, same_segment h off n hlo hhi, cString]
  have hwords : (List.range 8).map (fun i => cString a (0x14+24*i) 24) =
      (List.range 8).map (fun i => cString b (0x14+24*i) 24) := by
    refine List.map_congr_left (fun i hi => ?_)
    rw [List.mem_range] at hi
    exact hstring _ _ (by omega) (by omega)
  simp only [snapshotAt, hwords]
  rw [hword 0xC (by decide) (by decide), hword 0x10 (by decide) (by decide),
    hword 0xF4 (by decide) (by decide), hword 0xF8 (by decide) (by decide),
    hstring 0x100 96 (by decide) (by decide), hstring 0x164 32 (by decide) (by decide),
    h 0x184 (by decide) (by decide)]

theorem clamp_ne (max : ℕ) (b : Bytes) (h : ∀ x ∈ b, x ≠ 0) :
    (clamp max b).takeWhile (· ≠ 0) = clamp max b :=
  List.takeWhile_eq_self_iff.mpr (fun x hx => by simpa using h x (List.mem_of_mem_take hx))

theorem commits_snoc (prev : ℤ) (es : List Engine) (e : Engine) :
    commits prev (es++[e]) = commits prev es+
      if ((snapshot e).text.length : ℤ) ≠ es.foldl debugWriter.next prev then 1 else 0 := by
  induction es generalizing prev with
  | nil => rw [List.nil_append, commits, commits, commits, Nat.zero_add, Nat.add_zero, List.foldl_nil]
  | cons d es ih =>
    rw [List.cons_append, commits, ih, commits, List.foldl_cons, Nat.add_assoc]
    rfl

theorem head_shows (mem : Buffer) (v : View) (hcands : v.cands.length ≤ 40) :
    word (applyAll mem (headPart mem v)) 0xC = v.cands.length ∧
      word (applyAll mem (headPart mem v)) 0x10 = v.selected.toUInt32.toNat := by
  have hsel := v.selected.toUInt32.toNat_lt
  have hparts : headPart mem v = ([⟨8, le32 (word mem 8+1)⟩]++[⟨0xC, le32 v.cands.length⟩])++
      [⟨0x10, le32 v.selected.toUInt32.toNat⟩] := rfl
  rw [hparts, apply_all_append, apply_all_append]
  constructor
  · rw [word_within _ _ _ _ _ (within_word 0x10 _) (by decide)]
    exact (word_store _ 0xC v.cands.length).trans (Nat.mod_eq_of_lt (by omega))
  · exact (word_store _ 0x10 _).trans (Nat.mod_eq_of_lt (by omega))

theorem commit_shows (prevTextLen : ℤ) (mem m : Buffer) (v : View) :
    word (applyAll m (commitPart prevTextLen mem v)) 0xF4 =
      if (v.text.length : ℤ) ≠ prevTextLen then (word mem 0xF4+1) % 4294967296
      else word m 0xF4 := by
  rw [commitPart]
  split
  · exact word_store m 0xF4 _
  · rfl

theorem text_shows (m : Buffer) (v : View) (htext : v.text.length ≤ 2048) :
    word (applyAll m (textPart v)) 0xF8 = v.text.length ∧
      cString (applyAll m (textPart v)) 0x100 96 = (clamp 95 v.text).takeWhile (· ≠ 0) := by
  have hlen := clamp_length 95 v.text
  have hparts : textPart v = [⟨0xF8, le32 v.text.length⟩]++
      ([⟨0xFC, le32 v.cursorBytes.toUInt32.toNat⟩]++strStores 0x100 (clamp 95 v.text)) := rfl
  rw [hparts, apply_all_append, apply_all_append]
  constructor
  · rw [word_within _ _ _ _ _ (str_stores_within 0x100 _) (.inl (by decide)),
      word_within _ _ _ _ _ (within_word 0xFC _) (by decide)]
    exact (word_store m 0xF8 _).trans (Nat.mod_eq_of_lt (by omega))
  · exact c_string_stores _ 0x100 96 _ (by omega)

theorem pending_shows (m : Buffer) (v : View) (hpending : ∀ b ∈ v.pending, b ≠ 0) :
    cString (applyAll m (pendingPart v)) 0x164 32 = clamp 31 v.pending := by
  have hlen := clamp_length 31 v.pending
  rw [pendingPart, apply_all_append, c_string_stores _ 0x164 32 _ (by omega),
    clamp_ne 31 v.pending hpending]

/-- One refresh writes every field that is read, and the commit counter counts on. -/
theorem debug_body_shows (prevTextLen : ℤ) (mem : Buffer) (v : View) (hcands : v.cands.length ≤ 40)
    (htext : v.text.length ≤ 2048) (hpending : ∀ b ∈ v.pending, b ≠ 0) :
    snapshotAt (applyAll mem (debugBody prevTextLen mem v)) =
      { cand := v.cands.length
        selected := v.selected.toInt
        commit := if (v.text.length : ℤ) ≠ prevTextLen then (word mem 0xF4+1) % 4294967296
          else word mem 0xF4
        textLen := v.text.length
        text := (clamp 95 v.text).takeWhile (· ≠ 0)
        pending := clamp 31 v.pending
        mode := v.mode
        words := (List.range 8).map (viewWord v) } := by
  obtain ⟨hcand, hselected⟩ := head_shows mem v hcands
  -- the parts that follow a field leave it as its own part wrote it
  have hhead : ∀ off, 8 ≤ off → off+4 ≤ 0x14 →
      word (applyAll mem (debugBody prevTextLen mem v)) off =
        word (applyAll mem (headPart mem v)) off := by
    intro off _ hoff
    rw [debug_body_parts, apply_all_append,
      word_within _ _ _ _ _ (from_words prevTextLen mem v) (.inl hoff)]
  have hwords : ∀ i < 8, cString (applyAll mem (debugBody prevTextLen mem v)) (0x14+24*i) 24 =
      viewWord v i := by
    intro i hi
    rw [debug_body_parts, apply_all_append, apply_all_append,
      c_string_within _ _ _ _ _ _ (from_raw prevTextLen mem v) (.inl (by omega))]
    exact table_string _ 0x14 24 8 _ (view_word_length v) (fun i => strncpy_ne 23 _) i hi
  have hcommit : word (applyAll mem (debugBody prevTextLen mem v)) 0xF4 =
      if (v.text.length : ℤ) ≠ prevTextLen then (word mem 0xF4+1) % 4294967296
      else word mem 0xF4 := by
    rw [debug_body_parts]
    simp only [apply_all_append]
    rw [← apply_all_append, ← apply_all_append, word_within _ _ _ _ _ (from_text v) (by decide),
      commit_shows, word_within _ _ _ _ _ (raw_within v) (by decide),
      word_within _ _ _ _ _ (words_within v) (by decide),
      word_within _ _ _ _ _ (head_within mem v) (by decide)]
  generalize hm : applyAll (applyAll (applyAll (applyAll mem (headPart mem v))
    (tableStores 0x14 24 8 (viewWord v))) (rawStores v)) (commitPart prevTextLen mem v) = m
  have hlast : applyAll mem (debugBody prevTextLen mem v) =
      applyAll (applyAll (applyAll m (textPart v)) (pendingPart v)) [⟨0x184, [v.mode]⟩] := by
    rw [← hm, debug_body_parts]
    simp only [apply_all_append]
  obtain ⟨htextLen, htextBytes⟩ := text_shows m v htext
  have hpend := pending_shows (applyAll m (textPart v)) v hpending
  have hmode : applyAll (applyAll (applyAll m (textPart v)) (pendingPart v)) [⟨0x184, [v.mode]⟩]
      0x184 = v.mode := by
    simp [applyAll, apply, copyIn]
  simp only [snapshotAt, Snapshot.mk.injEq]
  refine ⟨by rw [hhead 0xC (by decide) (by decide), hcand, signed_small _ (by omega)],
    by rw [hhead 0x10 (by decide) (by decide), hselected, signed_int], hcommit, ?_, ?_, ?_, ?_, ?_⟩
  · rw [hlast, word_within _ _ _ _ _ (mode_within v) (by decide),
      word_within _ _ _ _ _ (pending_within v) (by decide), htextLen, signed_small _ (by omega)]
  · rw [hlast, c_string_within _ _ _ _ _ _ (mode_within v) (by decide),
      c_string_within _ _ _ _ _ _ (pending_within v) (by decide), htextBytes]
  · rw [hlast, c_string_within _ _ _ _ _ _ (mode_within v) (by decide), hpend]
  · rw [hlast, hmode]
  · exact List.map_congr_left (fun i hi => hwords i (List.mem_range.mp hi))

def DebugShows (es : List Engine) (mem : Buffer) : Prop := snapshotAt mem = shownOf es

theorem debug_shows_init : DebugShows [] zeroed := by
  have hseg : ∀ off n, Lib.Memory.segment zeroed off n = List.replicate n 0 := by
    intro off n
    rw [Lib.Memory.segment, List.eq_replicate_iff]
    simp [zeroed]
  have hword : ∀ off, word zeroed off = 0 := by
    intro off
    rw [word, hseg]
    rfl
  have hstring : ∀ off n, cString zeroed off n = [] := by
    intro off n
    rw [cString, hseg, List.takeWhile_replicate]
    rfl
  simp only [DebugShows, snapshotAt, hword, hstring]
  rfl

theorem debug_shows_body (es : List Engine) (mem : Buffer) (e : Engine) (h : DebugShows es mem) :
    DebugShows (es++[e]) (applyAll mem
      (debugWriter.body (es.foldl debugWriter.next debugWriter.locals) mem e)) := by
  have hcommit : word mem 0xF4 = commits (-1) es % 4294967296 := by
    have hfield := congrArg Snapshot.commit h
    rw [show word mem 0xF4 = (snapshotAt mem).commit from rfl, hfield, shownOf]
    cases hlast : es.getLast? with
    | none => rw [List.getLast?_eq_none_iff.mp hlast]; rfl
    | some d => rfl
  have hcands : (snapshot e).cands.length ≤ 40 := by
    simp only [snapshot, List.length_map]
    exact List.length_take_le _ _
  have htext : (snapshot e).text.length ≤ 2048 := List.length_take_le _ _
  have hpending : ∀ b ∈ (snapshot e).pending, b ≠ 0 :=
    fun b hb => by simpa using List.mem_takeWhile_imp hb
  have hbody := debug_body_shows (es.foldl debugWriter.next debugWriter.locals) mem (snapshot e)
    hcands htext hpending
  have hcount := commits_snoc (-1) es e
  rw [DebugShows, shownOf, List.getLast?_append, List.getLast?_singleton, Option.some_or]
  refine hbody.trans ?_
  simp only [Snapshot.mk.injEq, true_and, and_true]
  rw [hcount, hcommit]
  by_cases hchange : ((snapshot e).text.length : ℤ) ≠ es.foldl debugWriter.next (-1)
  · have hchange' : ((snapshot e).text.length : ℤ) ≠
        es.foldl debugWriter.next debugWriter.locals := hchange
    rw [if_pos hchange', if_pos hchange]
    omega
  · have hchange' : ¬ ((snapshot e).text.length : ℤ) ≠
        es.foldl debugWriter.next debugWriter.locals := hchange
    rw [if_neg hchange', if_neg hchange, Nat.add_zero]

theorem clamp_well_formed (max : ℕ) (b : Bytes) (h : WellFormed b) : WellFormed (clamp max b) := by
  have hboundary : ∀ n ≤ b.length, Boundary b (clampBoundary b n) := by
    intro n hn
    induction n with
    | zero => exact boundary_zero h
    | succ n ih =>
      rw [clampBoundary]
      by_cases hgo : continues (b.getD (n+1) 0)
      · rw [if_pos hgo]
        exact ih (by omega)
      · rw [if_neg hgo]
        intro x hx
        rw [List.getD_eq_getElem?_getD, hx, Option.getD_some] at hgo
        simpa using hgo
  exact (well_formed_cut h _ (hboundary _ (Nat.min_le_left _ _))).1

theorem debug_shows_same (es : List Engine) (a b : Buffer) (h : SameBody 400 a b)
    (hs : DebugShows es a) : DebugShows es b := (snapshot_same h).symm.trans hs

theorem accepted_fields (acts : List (Act Engine)) (s : State Engine ℤ)
    (he : exec (step debugWriter) debugWriter.init acts = some s) (ha : accepts debugWriter s)
    (hbound : s.bumps < s.start+256) :
    s.bumps = s.start ∧ readSnapshot s.blob = shownOf s.shown := by
  obtain ⟨hshows, hstill⟩ := accepted_shows debugWriter DebugShows debug_shows_same
    debug_shows_body debug_shows_init acts s he ha hbound
  have hlen : s.blob.length = 400 := by
    simp only [accepts, Bool.and_eq_true, beq_iff_eq] at ha
    exact ha.1.1.1
  exact ⟨hstill, (read_snapshot_blob s.blob hlen).trans hshows⟩

theorem shown_text (es : List Engine) (e : Engine) (hlast : es.getLast? = some e)
    (hutf8 : WellFormed (snapshot e).text) (hne : ∀ b ∈ (snapshot e).text, b ≠ 0) :
    WellFormed (shownOf es).text ∧ (shownOf es).text <+: (snapshot e).text := by
  have htext : (shownOf es).text = clamp 95 (snapshot e).text := by
    rw [shownOf, hlast]
    exact clamp_ne 95 _ hne
  rw [htext]
  exact ⟨clamp_well_formed 95 _ hutf8, List.take_prefix _ _⟩

/-- Whatever the task and the reader do in turn: if the reader accepts what it has read, and
the counter was stored into fewer than 256 times meanwhile, then no refresh began or ended
meanwhile, and the fields are those of the last refresh; a UTF-8 text is shown as UTF-8, cut
in front of a character. After a refresh a reading that none disturbs is accepted. -/
theorem snapshot_accepted (acts : List (Act Engine)) (s : State Engine ℤ)
    (he : exec (step debugWriter) debugWriter.init acts = some s) :
    (accepts debugWriter s → s.bumps < s.start+256 →
      s.bumps = s.start ∧ readSnapshot s.blob = shownOf s.shown) ∧
    (∀ e, s.shown.getLast? = some e → WellFormed (snapshot e).text →
      (∀ b ∈ (snapshot e).text, b ≠ 0) →
      WellFormed (shownOf s.shown).text ∧ (shownOf s.shown).text <+: (snapshot e).text) ∧
    (s.todo = [] → s.published ≠ [] →
      ∃ t, exec (step debugWriter) s (.restart::List.replicate 400 .read) = some t ∧
        accepts debugWriter t ∧ readSnapshot t.blob = shownOf s.published) := by
  refine ⟨accepted_fields acts s he, fun e => shown_text s.shown e, fun htodo hpub => ?_⟩
  have hi := inv_exec debugWriter DebugShows debug_shows_same debug_shows_body debug_shows_init
    acts s he
  obtain ⟨t, ht, haccepts, hstill, -, hshown⟩ := quiet_accepted debugWriter DebugShows hi htodo hpub
  have hfields := accepted_fields _ t (exec_trans _ acts _ _ s t he ht) haccepts (by omega)
  exact ⟨t, ht, haccepts, by rw [hfields.2, hshown]⟩

def oneLetter : Engine := ⟨[0x61], 1, [], [[0x61, 0x62]], 0, 1⟩

def oneRefresh : List (Act Engine) := .render oneLetter::List.replicate 56 .store

theorem one_refresh_accepted : ∃ s t, exec (step debugWriter) debugWriter.init oneRefresh = some s ∧
    exec (step debugWriter) s (.restart::List.replicate 400 .read) = some t ∧
    accepts debugWriter t ∧ readSnapshot t.blob = shownOf [oneLetter] := by
  have hrun : (exec (step debugWriter) debugWriter.init oneRefresh).map
      (fun s => (s.todo.isEmpty, s.published)) = some (true, [oneLetter]) := by decide +kernel
  obtain ⟨s, hs, hfields⟩ := Option.map_eq_some_iff.mp hrun
  obtain ⟨htodo, hpublished⟩ := Prod.mk.inj hfields
  obtain ⟨t, ht, haccepts, hread⟩ := (snapshot_accepted oneRefresh s hs).2.2
    (List.isEmpty_iff.mp htodo) (by rw [hpublished]; exact List.cons_ne_nil _ _)
  rw [hpublished] at hread
  exact ⟨s, t, hs, ht, haccepts, hread⟩

end MokyaLora.ImeSnapshot
