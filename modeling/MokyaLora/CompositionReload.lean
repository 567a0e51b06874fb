import MokyaLora.CompositionSearcher

/-!
# Loading one dictionary after another

A load takes over every field of the header, but the prefix table only where the file has
one. Without it the table of an earlier file stays, and when that file lay in a buffer of the
object the buffer is gone.
-/

set_option autoImplicit false

namespace MokyaLora
open Lib.Fields Lib.TopK

/-- Whose memory the prefix table lies in. -/
inductive TableOwner
  | caller
  | object
  | released
  deriving DecidableEq

/-- A searcher with the buffer that it owns. -/
structure SearcherObject where
  t : CompositionSearcher
  ownedBuf : Option Bytes
  table : TableOwner

/-- The calls that load; a file that cannot be opened or read has no content. -/
inductive Load
  | loadFromMemory (buf : Option Bytes)
  | loadFromFile (content : Option Bytes)

namespace CompositionSearcher

def Accepted (b : Bytes) : Prop :=
  kHeaderSize ≤ b.length ∧ slice b 0 4 = kMagic ∧ load16 b 4 = kVersion ∧
    ∀ off ∈ [load32 b 16, load32 b 20, load32 b 24, load32 b 28, load32 b 0x24, load32 b 0x28],
      off < b.length

instance (b : Bytes) : Decidable (Accepted b) := inferInstanceAs (Decidable (_ ∧ _ ∧ _ ∧ _))

def ownTable (b : Bytes) : Option (List ℕ) := prefixTableAt b (load32 b 0x2C)

def ofFile (b : Bytes) (prefixTable : List ℕ) : CompositionSearcher where
  buf := b
  version := load16 b 4
  flags := load16 b 6
  hasPhonemePos := load16 b 6 % 2 == 1
  charCount := load32 b 8
  wordCount := load32 b 12
  charTable := load32 b 16
  wordTable := load32 b 20
  firstCharIdx := load32 b 24
  keyToCharIdx := load32 b 28
  charOffsets := load32 b 0x24
  wordOffsets := load32 b 0x28
  groups := (List.range kMaxGroups).map (fun g =>
    (load32 b (load32 b 20+8*g), load32 b (load32 b 20+8*g+4)))
  prefixTable := prefixTable
  loaded := true

variable (t : CompositionSearcher)

theorem load_accepted (b : Bytes) (h : Accepted b) :
    t.loadFromMemory (some b) = (ofFile b ((ownTable b).getD t.prefixTable), true) := by
  obtain ⟨hsize, hmagic, hversion, hoffs⟩ := h
  have hno : ¬ ∃ off ∈ [load32 b 16, load32 b 20, load32 b 24, load32 b 28, load32 b 0x24,
      load32 b 0x28], b.length ≤ off := by
    rintro ⟨off, hmem, hle⟩
    exact absurd (hoffs off hmem) (not_lt.mpr hle)
  simp only [loadFromMemory, if_neg (not_lt.mpr hsize), parseHeader]
  rw [if_neg (not_not.mpr hmagic), if_neg (not_not.mpr hversion), if_neg hno]
  rfl

theorem load_refused (b : Bytes) (h : ¬ Accepted b) : (t.loadFromMemory (some b)).2 = false ∧
    (t.loadFromMemory (some b)).1.prefixTable = t.prefixTable := by
  by_cases hsize : b.length < kHeaderSize
  · simp only [loadFromMemory, if_pos hsize]
    exact ⟨trivial, trivial⟩
  · by_cases hmagic : slice b 0 4 = kMagic
    · by_cases hversion : load16 b 4 = kVersion
      · have hoffs : ∃ off ∈ [load32 b 16, load32 b 20, load32 b 24, load32 b 28, load32 b 0x24,
            load32 b 0x28], b.length ≤ off := by
          by_contra hno
          refine h ⟨not_lt.mp hsize, hmagic, hversion, fun off hmem => ?_⟩
          by_contra hle
          exact hno ⟨off, hmem, not_lt.mp hle⟩
        simp only [loadFromMemory, if_neg hsize, parseHeader]
        rw [if_neg (not_not.mpr hmagic), if_neg (not_not.mpr hversion), if_pos hoffs]
        exact ⟨rfl, rfl⟩
      · simp only [loadFromMemory, if_neg hsize, parseHeader]
        rw [if_neg (not_not.mpr hmagic), if_pos hversion]
        exact ⟨rfl, rfl⟩
    · simp only [loadFromMemory, if_neg hsize, parseHeader]
      rw [if_pos hmagic]
      exact ⟨rfl, rfl⟩

def withTable (table : List ℕ) : CompositionSearcher := { t with prefixTable := table }

variable (table : List ℕ)

theorem readings_with (n p : ℕ) : (t.withTable table).readings n p = t.readings n p := by
  induction n generalizing p with
  | zero => rfl
  | succ n ih =>
    rw [readings, readings, ih]
    rfl

theorem char_readings_with (cid : ℕ) :
    (t.withTable table).charReadings cid = t.charReadings cid := t.readings_with table _ _

theorem word_readings_with (w : WordView) :
    (t.withTable table).wordReadings w = t.wordReadings w := by
  simp only [wordReadings, getReading, char_readings_with]

theorem append_chars_with (cids : List ℕ) (written : Bytes) :
    (t.withTable table).appendChars cids written = t.appendChars cids written := by
  induction cids generalizing written with
  | nil => rfl
  | cons cid cids ih =>
    rw [appendChars, appendChars, ih]
    rfl

theorem word_candidate_with (w : WordView) :
    (t.withTable table).wordCandidate w = t.wordCandidate w := by
  simp only [wordCandidate, getWordTone, word_readings_with, append_chars_with]

theorem match_word_with (range : ℕ × ℕ) (keys : Bytes) (hints : Option Bytes) (wid : ℕ) :
    (t.withTable table).matchWord range keys hints wid = t.matchWord range keys hints wid := by
  have hword : (t.withTable table).getWord wid = t.getWord wid := rfl
  have hhints : (t.withTable table).checkedHints hints = t.checkedHints hints := rfl
  simp only [matchWord, hword, compositionMatches, word_readings_with, hhints, word_candidate_with]
  rfl

theorem pick_char_with (keys : Bytes) (requireTone1 : Bool) (hints : Option Bytes) (cid : ℕ) :
    (t.withTable table).pickChar keys requireTone1 hints cid =
      t.pickChar keys requireTone1 hints cid := by
  rw [pickChar, pickChar, char_readings_with]

theorem search_with (std : DescendingSort) (keys : Bytes) (hints : Option Bytes) (target : ℤ)
    (maxResults : ℕ) : (t.withTable table).search std keys hints target maxResults =
      t.search std keys hints target maxResults := by
  have hpick : (t.withTable table).pickChar = t.pickChar := by
    funext keys requireTone1 hints cid
    exact t.pick_char_with table keys requireTone1 hints cid
  have hmatch : (t.withTable table).matchWord = t.matchWord := by
    funext range keys hints wid
    exact t.match_word_with table range keys hints wid
  simp only [search, searchChars, hpick, hmatch]
  rfl

theorem counts_nothing :
    (∀ keys, t.countSyllables keys = 0) ↔ ∀ b, t.hasReadingPrefix b = false := by
  constructor
  · intro h b
    by_contra hb
    rw [Bool.not_eq_false] at hb
    have hlen : b ≠ [] ∧ b.length ≤ 4 := by
      by_contra hno
      rw [hasReadingPrefix, if_pos] at hb
      · exact absurd hb (by decide)
      · by_cases hnil : b = []
        · exact .inr (.inl hnil)
        · exact .inr (.inr (not_le.mp fun hle => hno ⟨hnil, hle⟩))
    have hpos : 0 < b.length := List.length_pos_iff.mpr hlen.1
    obtain ⟨n, hn⟩ := Nat.exists_eq_succ_of_ne_zero (Nat.ne_of_gt hpos)
    have hbest : t.longestPrefix b (min b.length 4) = n+1 := by
      rw [Nat.min_eq_left hlen.2, hn, longestPrefix, ← Nat.succ_eq_add_one, ← hn, List.take_length,
        if_pos hb]
    have hcount := h b
    rw [countSyllables, hn, countFrom, if_neg hlen.1] at hcount
    simp only [hbest] at hcount
    rw [if_neg (Nat.succ_ne_zero n)] at hcount
    omega
  · intro h keys
    have hlongest : ∀ ks len, t.longestPrefix ks len = 0 := by
      intro ks len
      induction len with
      | zero => rfl
      | succ len ih => rw [longestPrefix, h, if_neg (by decide), ih]
    have hcount : ∀ n ks, t.countFrom n ks = 0 := by
      intro n
      induction n with
      | zero => exact fun _ => rfl
      | succ n ih =>
        intro ks
        rw [countFrom]
        split
        · rfl
        · simp only [hlongest, if_pos, ih]
    exact hcount _ keys

end CompositionSearcher

namespace SearcherObject
open CompositionSearcher

def init : SearcherObject := ⟨.init, none, .caller⟩

def readBuffer (x : SearcherObject) (buf : Option Bytes) (owner : TableOwner) :
    SearcherObject × Bool :=
  let (t, ok) := x.t.loadFromMemory buf
  let table := if ok ∧ (buf.bind ownTable).isSome then owner else x.table
  (⟨t, x.ownedBuf, table⟩, ok)

def deleteBuffer (x : SearcherObject) : SearcherObject :=
  { x with ownedBuf := none, table := if x.table = .object then .released else x.table }

def load (x : SearcherObject) : Load → SearcherObject × Bool
  | .loadFromMemory buf => x.readBuffer buf .caller
  | .loadFromFile none => (x, false)
  | .loadFromFile (some b) =>
    if b = [] then (x, false)
    else readBuffer { x.deleteBuffer with ownedBuf := some b } (some b) .object

def run (x : SearcherObject) (loads : List Load) : SearcherObject :=
  loads.foldl (fun x op => (x.load op).1) x

variable (x : SearcherObject)

/-- The bisection of a table that is not empty reads from it; `none` is a read of memory
that was given back. -/
def hasReadingPrefix (b : Bytes) : Option Bool :=
  if x.t.prefixTable = [] ∨ b = [] ∨ 4 < b.length then some false
  else if x.table = .released then none
  else some (x.t.hasReadingPrefix b)

def longestPrefix (keys : Bytes) : ℕ → Option ℕ
  | 0 => some 0
  | len+1 => do
    let found ← x.hasReadingPrefix (keys.take (len+1))
    if found then some (len+1) else longestPrefix keys len

def countFrom : ℕ → Bytes → Option ℕ
  | 0, _ => some 0
  | n+1, keys =>
    if keys = [] then some 0
    else do
      let best ← x.longestPrefix keys (min keys.length 4)
      if best = 0 then countFrom n (keys.drop 1)
      else do
        let count ← countFrom n (keys.drop best)
        some (1+count)

def countSyllables (keys : Bytes) : Option ℕ := x.countFrom keys.length keys

/-- The table can be read, or has nothing to read. -/
def Readable : Prop := x.t.prefixTable = [] ∨ x.table ≠ .released

variable {x}

theorem count_readable (h : x.Readable) (keys : Bytes) :
    x.countSyllables keys = some (x.t.countSyllables keys) := by
  have hprefix : ∀ b, x.hasReadingPrefix b = some (x.t.hasReadingPrefix b) := by
    intro b
    rw [hasReadingPrefix]
    by_cases hcond : x.t.prefixTable = [] ∨ b = [] ∨ 4 < b.length
    · rw [if_pos hcond, CompositionSearcher.hasReadingPrefix, if_pos hcond]
    · rw [if_neg hcond, if_neg (h.resolve_left fun hnil => hcond (.inl hnil))]
  have hlongest : ∀ ks len, x.longestPrefix ks len = some (x.t.longestPrefix ks len) := by
    intro ks len
    induction len with
    | zero => rfl
    | succ len ih =>
      simp only [longestPrefix, hprefix, CompositionSearcher.longestPrefix, ih,
        Option.bind_eq_bind, Option.bind_some]
      split <;> rfl
  have hcount : ∀ n ks, x.countFrom n ks = some (x.t.countFrom n ks) := by
    intro n
    induction n with
    | zero => exact fun _ => rfl
    | succ n ih =>
      intro ks
      simp only [countFrom, hlongest, CompositionSearcher.countFrom, ih, Option.bind_eq_bind,
        Option.bind_some]
      split
      · rfl
      · split <;> rfl
  exact hcount _ keys

theorem count_released (h : ¬ x.Readable) (k : UInt8) : x.countSyllables [k] = none := by
  have hno := not_or.mp h
  have hprefix : x.hasReadingPrefix [k] = none := by
    rw [hasReadingPrefix, if_neg (by simp [hno.1]), if_pos (not_not.mp hno.2)]
  have hlongest : x.longestPrefix [k] 1 = none := by
    rw [longestPrefix, List.take_of_length_le (Nat.le_refl 1), hprefix]
    rfl
  rw [countSyllables, List.length_singleton, countFrom, if_neg (List.cons_ne_nil k [])]
  rw [List.length_singleton, Nat.min_eq_left (by decide), hlongest]
  rfl

def content : Load → Option Bytes
  | .loadFromMemory buf => buf
  | .loadFromFile content => content

variable (x)

/-- The owner of the table that is left, after the call gave back the buffer. -/
def ownerLeft : Load → TableOwner
  | .loadFromMemory _ => x.table
  | .loadFromFile _ => x.deleteBuffer.table

variable {x}

theorem read_buffer_success (b : Bytes) (owner : TableOwner)
    (h : (x.readBuffer (some b) owner).2 = true) : Accepted b ∧
      (x.readBuffer (some b) owner).1.t = ofFile b ((ownTable b).getD x.t.prefixTable) ∧
      (x.readBuffer (some b) owner).1.table = if (ownTable b).isSome then owner else x.table := by
  by_cases hb : Accepted b
  · have hload := x.t.load_accepted b hb
    refine ⟨hb, ?_, ?_⟩
    · rw [readBuffer, hload]
    · simp only [readBuffer, hload, Option.bind_some, true_and]
  · rw [readBuffer, (x.t.load_refused b hb).1] at h
    exact absurd h (by decide)

theorem load_success (op : Load) (h : (x.load op).2 = true) : ∃ b owner, content op = some b ∧
    Accepted b ∧ owner ≠ .released ∧
    (x.load op).1.t = ofFile b ((ownTable b).getD x.t.prefixTable) ∧
    (x.load op).1.table = if (ownTable b).isSome then owner else x.ownerLeft op := by
  cases op with
  | loadFromMemory buf =>
    cases buf with
    | none => exact absurd h Bool.false_ne_true
    | some b =>
      obtain ⟨hb, ht, htable⟩ := read_buffer_success b .caller h
      exact ⟨b, .caller, rfl, hb, by decide, ht, htable⟩
  | loadFromFile buf =>
    cases buf with
    | none => exact absurd h Bool.false_ne_true
    | some b =>
      by_cases hnil : b = []
      · rw [load, if_pos hnil] at h
        exact absurd h Bool.false_ne_true
      · rw [load, if_neg hnil] at h ⊢
        obtain ⟨hb, ht, htable⟩ := read_buffer_success b .object h
        exact ⟨b, .object, rfl, hb, by decide, ht, htable⟩

theorem load_again (y : SearcherObject) (op : Load) (h : (x.load op).2 = true) :
    (y.load op).2 = true := by
  obtain ⟨b, -, hop, hb, -⟩ := load_success op h
  have haccepted : ∀ (z : SearcherObject) (owner : TableOwner),
      (z.readBuffer (some b) owner).2 = true := by
    intro z owner
    rw [readBuffer, z.t.load_accepted b hb]
  cases op with
  | loadFromMemory buf =>
    rw [show buf = some b from hop]
    exact haccepted y .caller
  | loadFromFile buf =>
    have hne : b ≠ [] := by
      rintro rfl
      exact absurd hb.1 (by decide)
    rw [show buf = some b from hop, load, if_neg hne]
    exact haccepted _ .object

def loadedTable (op : Load) : Option (List ℕ) :=
  (content op).bind (fun b => if Accepted b then ownTable b else none)

theorem load_table (op : Load) :
    (x.load op).1.t.prefixTable = (loadedTable op).getD x.t.prefixTable := by
  have hread : ∀ (y : SearcherObject) (b : Bytes) (owner : TableOwner),
      (y.readBuffer (some b) owner).1.t.prefixTable =
        (if Accepted b then ownTable b else none).getD y.t.prefixTable := by
    intro y b owner
    by_cases hb : Accepted b
    · rw [readBuffer, y.t.load_accepted b hb, if_pos hb]
      rfl
    · rw [if_neg hb]
      exact (y.t.load_refused b hb).2
  cases op with
  | loadFromMemory buf =>
    cases buf with
    | none => rfl
    | some b => exact hread x b .caller
  | loadFromFile buf =>
    cases buf with
    | none => rfl
    | some b =>
      by_cases hnil : b = []
      · subst hnil
        rfl
      · rw [load, if_neg hnil]
        exact hread _ b .object

/-- The table that is left is that of the last file that had one. -/
theorem run_table (loads : List Load) :
    (init.run loads).t.prefixTable = ((loads.filterMap loadedTable).getLast?).getD [] := by
  induction loads using List.reverseRecOn with
  | nil => rfl
  | append_singleton loads op ih =>
    have hrun : init.run (loads++[op]) = ((init.run loads).load op).1 := by
      rw [run, List.foldl_append]
      rfl
    rw [hrun, load_table, ih, List.filterMap_append]
    cases hop : loadedTable op with
    | none => rw [List.filterMap_cons_none hop, List.filterMap_nil, List.append_nil]; rfl
    | some table =>
      rw [List.filterMap_cons_some hop, List.filterMap_nil, List.getLast?_concat]
      rfl

def SameResults (y z : SearcherObject) : Prop :=
  (∀ std keys hints target maxResults,
    y.t.search std keys hints target maxResults = z.t.search std keys hints target maxResults) ∧
  ∀ keys, y.countSyllables keys = z.countSyllables keys

variable (x)

/-- The file has a table of its own, or the table that is left does no harm: it is empty, or it
can be read and accepts no keys. -/
def NoTableLeft (op : Load) : Prop :=
  ((content op).bind ownTable).isSome ∨ x.t.prefixTable = [] ∨
    (x.ownerLeft op ≠ .released ∧ ∀ b, x.t.hasReadingPrefix b = false)

variable {x}

theorem search_same (y : SearcherObject) (op : Load) (h : (x.load op).2 = true) (std : DescendingSort)
    (keys : Bytes) (hints : Option Bytes) (target : ℤ) (maxResults : ℕ) :
    (x.load op).1.t.search std keys hints target maxResults =
      (y.load op).1.t.search std keys hints target maxResults := by
  obtain ⟨b, _, hop, -, -, hx, -⟩ := load_success op h
  obtain ⟨b', _, hop', -, -, hy, -⟩ := load_success op (load_again y op h)
  obtain rfl : b = b' := Option.some.inj (hop.symm.trans hop')
  have hwith : ∀ table, ofFile b table = (ofFile b []).withTable table := fun _ => rfl
  rw [hx, hy, hwith, search_with, hwith ((ownTable b).getD y.t.prefixTable), search_with]

/-- After any loads a file gives the results that it gives in a fresh object if and only if
no table is left that harms them. -/
theorem reload_independent (loads : List Load) (op : Load)
    (h : ((init.run loads).load op).2 = true) :
    SameResults ((init.run loads).load op).1 (init.load op).1 ↔ NoTableLeft (init.run loads) op := by
  generalize init.run loads = x at h ⊢
  rw [SameResults, and_iff_right (search_same init op h)]
  obtain ⟨b, owner, hop, -, howner, ht, htable⟩ := load_success op h
  obtain ⟨b', owner', hop', -, howner', ht', htable'⟩ := load_success op (load_again init op h)
  obtain rfl : b = b' := Option.some.inj (hop.symm.trans hop')
  rw [NoTableLeft, hop, Option.bind_some]
  by_cases hown : (ownTable b).isSome = true
  · obtain ⟨table, heq⟩ := Option.isSome_iff_exists.mp hown
    rw [if_pos hown] at htable htable'
    rw [heq, Option.getD_some] at ht ht'
    refine iff_of_true (fun keys => ?_) (.inl hown)
    rw [count_readable (.inr (htable ▸ howner)), count_readable (.inr (htable' ▸ howner')), ht, ht']
  · have hnone : ownTable b = none := by simpa using hown
    rw [if_neg hown] at htable htable'
    rw [hnone, Option.getD_none] at ht ht'
    have hfresh : ∀ keys, (init.load op).1.countSyllables keys = some 0 := by
      intro keys
      have hempty : (init.load op).1.t.prefixTable = [] := by
        rw [ht']
        rfl
      rw [count_readable (.inl hempty), (counts_nothing _).mpr]
      intro k
      rw [CompositionSearcher.hasReadingPrefix, if_pos (.inl hempty)]
    have hleft : (x.load op).1.t.prefixTable = x.t.prefixTable := by
      rw [ht]
      rfl
    simp only [hfresh, or_iff_right hown]
    by_cases hread : (x.load op).1.Readable
    · simp only [count_readable hread, Option.some.injEq]
      rw [counts_nothing]
      simp only [has_prefix_table _ _ hleft]
      rw [Readable, hleft, htable] at hread
      constructor
      · intro hnot
        exact hread.imp_right fun howner => ⟨howner, hnot⟩
      · rintro (hnil | ⟨-, hnot⟩)
        · intro k
          rw [CompositionSearcher.hasReadingPrefix, if_pos (.inl hnil)]
        · exact hnot
    · refine iff_of_false (fun hall => ?_) ?_
      · have hgone := hall [0]
        rw [count_released hread] at hgone
        cases hgone
      · rw [Readable, hleft, htable] at hread
        exact fun hor => hread (hor.imp_right And.left)

def bareFile (totalSize prefixOff : ℕ) : Bytes :=
  kMagic++[4, 0, 1, 0]++[0, 0, 64, 64, 64, 64, totalSize, 64, 64, prefixOff].flatMap le32++
    List.replicate 144 0

def plainFile : Bytes := bareFile 192 0

def tableFile : Bytes := bareFile 204 192++le32 1++le64 4294967328

theorem table_of_its_own :
    SameResults ((init.run [.loadFromFile (some plainFile)]).load (.loadFromFile (some tableFile))).1
      (init.load (.loadFromFile (some tableFile))).1 :=
  (reload_independent [.loadFromFile (some plainFile)] (.loadFromFile (some tableFile))
    (by decide +kernel)).mpr (.inl (by decide +kernel))

theorem table_left_over :
    ((init.run [.loadFromMemory (some tableFile)]).load (.loadFromMemory (some plainFile))).2 = true ∧
    ((init.run [.loadFromMemory (some tableFile)]).load
      (.loadFromMemory (some plainFile))).1.countSyllables [0x20] = some 1 ∧
    ((init.run [.loadFromFile (some tableFile)]).load
      (.loadFromFile (some plainFile))).1.countSyllables [0x20] = none ∧
    (init.load (.loadFromMemory (some plainFile))).1.countSyllables [0x20] = some 0 ∧
    (init.load (.loadFromFile (some plainFile))).1.countSyllables [0x20] = some 0 := by
  decide +kernel

end SearcherObject

end MokyaLora
