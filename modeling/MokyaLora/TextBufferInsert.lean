import MokyaLora.TextBufferOk

/-!
# What an insertion does to the text on either side

The committed string ends the text in front of the cursor, and behind it stands what
stood there, unless the cursor was in the half that was dropped. A cursor at the end
of the text is set back by the byte that happens to stand behind the newer half.
-/

set_option autoImplicit false

namespace MokyaLora.Ime.TextBuffer
open Lib.Fields Lib.Memory Lib.Utf8 Lib.Schedule

/-- The insertion drops the older half. -/
def Drops (s : TextBuffer) (str : Bytes) : Prop :=
  str ≠ [] ∧ kTextCapacity < s.textLen+str.length ∧ kTextCapacity/2 < s.textLen

/-- What an insertion may do: on the left, drop from the front and append the string;
on the right nothing, or drop what was in the older half. -/
structure Inserts (s t : TextBuffer) (str : Bytes) : Prop where
  left : t.left <:+ s.left++str
  ends : str <:+ t.left
  right : (s.Drops str → s.textLen-kTextCapacity/2 ≤ s.cursor) → t.right = s.right
  rest : t.right <:+ s.right
  content : t.content = t.left++t.right
  limit : t.textLen ≤ kTextCapacity

/-- The cursor at the end of a text that is cut to its newer half, behind which a byte
that continues a character is left over. -/
def EndsSplit (s : TextBuffer) (str : Bytes) : Prop :=
  s.Drops str ∧ s.cursor = s.textLen ∧ continues (s.text (kTextCapacity/2)) = true

section Sides

variable (s : TextBuffer) (str : Bytes)

theorem sides_content (h : s.cursor ≤ s.textLen) : s.content = s.left++s.right := by
  rw [← (s.content_cut h).1, ← (s.content_cut h).2, List.take_append_drop]

theorem push_sides (h : s.cursor ≤ s.textLen) :
    (s.pushIn str).left = s.left++str ∧ (s.pushIn str).right = s.right := by
  have hcontent : (s.pushIn str).content = (s.left++str)++s.right := by
    rw [List.append_assoc]
    exact segment_insert s.text s.cursor s.textLen str 0 h
  have hcursor : (s.pushIn str).cursor = (s.left++str).length := by
    rw [List.length_append, left, segment_length, pushIn]
  have hle : (s.pushIn str).cursor ≤ (s.pushIn str).textLen := Nat.add_le_add_right h _
  obtain ⟨hl, hr⟩ := (s.pushIn str).content_cut hle
  rw [← hl, ← hr, hcontent, hcursor, List.take_left, List.drop_left]
  exact ⟨rfl, rfl⟩

theorem push_inserts (u : TextBuffer) (hu : u.cursor ≤ u.textLen)
    (hroom : u.textLen+str.length ≤ kTextCapacity) (hleft : u.left <:+ s.left)
    (hright : (s.Drops str → s.textLen-kTextCapacity/2 ≤ s.cursor) → u.right = s.right)
    (hrest : u.right <:+ s.right) : Inserts s (u.pushIn str) str := by
  obtain ⟨hl, hr⟩ := u.push_sides str hu
  obtain ⟨dropped, hdropped⟩ := hleft
  constructor
  · exact ⟨dropped, by rw [hl, ← List.append_assoc, hdropped]⟩
  · exact ⟨u.left, hl.symm⟩
  · rw [hr]
    exact hright
  · rw [hr]
    exact hrest
  · exact (u.pushIn str).sides_content (Nat.add_le_add_right hu _)
  · exact hroom

end Sides

section Newer

variable (s : TextBuffer)

def newerHalf : TextBuffer :=
  let drop := s.textLen-kTextCapacity/2
  let text := move s.text 0 drop (kTextCapacity/2)
  ⟨store text (kTextCapacity/2) 0, kTextCapacity/2, stepBack text (s.cursor-drop)⟩

theorem room_newer (need : ℕ) (h : kTextCapacity < s.textLen+need)
    (hkeep : kTextCapacity/2 < s.textLen) :
    s.makeRoomFor need = (s.newerHalf, decide (kTextCapacity/2+need ≤ kTextCapacity)) := by
  rw [makeRoomFor, if_neg (not_le.mpr h)]
  dsimp only
  rw [if_pos hkeep]
  rfl

theorem newer_content (hcursor : s.cursor ≤ s.textLen) (hkeep : kTextCapacity/2 < s.textLen) :
    s.newerHalf.content = s.content.drop (s.textLen-kTextCapacity/2) ∧
    s.newerHalf.cursor ≤ s.newerHalf.textLen := by
  have hfull : kTextCapacity < s.textLen+kTextCapacity := by omega
  obtain ⟨u, hu, -, hc, hcontent, -⟩ := s.room_cut kTextCapacity hcursor hfull hkeep
  rw [s.room_newer kTextCapacity hfull hkeep, Prod.mk.injEq] at hu
  exact hu.1 ▸ ⟨hcontent, hc⟩

theorem step_back_self (b : Buffer) (pos : ℕ) (h : 0 < pos → continues (b pos) = false) :
    stepBack b pos = pos := by
  cases pos with
  | zero => rfl
  | succ pos => rw [stepBack, if_neg (Bool.eq_false_iff.mp (h (Nat.succ_pos pos)))]

/-- A cursor within the newer half keeps its place, also at the end of the text unless
the byte left over there continues a character. -/
theorem newer_cursor (hcursor : s.cursor ≤ s.textLen) (hkeep : kTextCapacity/2 < s.textLen)
    (hb : Boundary s.content s.cursor)
    (hend : ¬ (s.cursor = s.textLen ∧ continues (s.text (kTextCapacity/2)) = true)) :
    s.newerHalf.cursor = s.cursor-(s.textLen-kTextCapacity/2) := by
  unfold newerHalf
  dsimp only
  apply step_back_self
  intro hpos
  by_cases hlast : s.cursor = s.textLen
  · have hplace : s.cursor-(s.textLen-kTextCapacity/2) = kTextCapacity/2 := by omega
    have hleft : continues (s.text (kTextCapacity/2)) = false :=
      Bool.eq_false_iff.mpr (fun h => hend ⟨hlast, h⟩)
    rw [hplace, move, if_neg (by omega)]
    exact hleft
  · have hplace : s.textLen-kTextCapacity/2+(s.cursor-(s.textLen-kTextCapacity/2)-0) =
        s.cursor := by omega
    have hget : s.content[s.cursor]? = some (s.text s.cursor) := by
      rw [content, segment_get _ _ _ _ (by omega), Nat.zero_add]
    rw [move, if_pos ⟨Nat.zero_le _, by omega⟩, hplace]
    exact hb _ hget

theorem step_back_lt (b : Buffer) (pos : ℕ) (hpos : 0 < pos) (h : continues (b pos) = true) :
    stepBack b pos < pos := by
  cases pos with
  | zero => exact absurd hpos (Nat.lt_irrefl 0)
  | succ pos =>
    rw [stepBack, if_pos h]
    exact Nat.lt_succ_of_le (step_back_le b pos)

theorem newer_split (hkeep : kTextCapacity/2 < s.textLen) (hend : s.cursor = s.textLen)
    (hcont : continues (s.text (kTextCapacity/2)) = true) :
    s.newerHalf.cursor < kTextCapacity/2 := by
  have hplace : s.cursor-(s.textLen-kTextCapacity/2) = kTextCapacity/2 := by omega
  have hstale : move s.text 0 (s.textLen-kTextCapacity/2) (kTextCapacity/2) (kTextCapacity/2) =
      s.text (kTextCapacity/2) := by
    rw [move, if_neg (by omega)]
  unfold newerHalf
  dsimp only
  rw [hplace]
  have hpos : 0 < kTextCapacity/2 := by decide
  rw [← hstale] at hcont
  exact step_back_lt _ _ hpos hcont

theorem newer_sides (hcursor : s.cursor ≤ s.textLen) (hkeep : kTextCapacity/2 < s.textLen)
    (h : s.newerHalf.cursor = s.cursor-(s.textLen-kTextCapacity/2)) :
    s.newerHalf.left = s.left.drop (s.textLen-kTextCapacity/2) ∧
    s.newerHalf.right = s.right.drop (s.textLen-kTextCapacity/2-s.cursor) := by
  obtain ⟨hcontent, hle⟩ := s.newer_content hcursor hkeep
  obtain ⟨hl, hr⟩ := s.newerHalf.content_cut hle
  obtain ⟨hl', hr'⟩ := s.content_cut hcursor
  generalize s.textLen-kTextCapacity/2 = drop at *
  have hplace : drop+(s.cursor-drop) = s.cursor+(drop-s.cursor) := by omega
  rw [← hl, ← hr, ← hl', ← hr', hcontent, h, List.drop_drop, List.drop_drop, List.drop_take,
    hplace]
  exact ⟨rfl, rfl⟩

end Newer

theorem insert_kept (s : TextBuffer) (str : Bytes) (hcursor : s.cursor ≤ s.textLen)
    (hlimit : s.textLen ≤ kTextCapacity) (hstr : str.length ≤ kMaxDisplayBytes)
    (hkeeps : ¬ s.Drops str) : Inserts s (s.insertAtCursor str) str := by
  have hcap : kTextCapacity = 2048 := rfl
  have hmax : kMaxDisplayBytes = 256 := rfl
  by_cases hne : str = []
  · rw [insertAtCursor, if_pos hne, hne]
    constructor
    · exact (List.append_nil s.left).symm ▸ List.suffix_rfl
    · exact List.nil_suffix
    · exact fun _ => rfl
    · exact List.suffix_rfl
    · exact s.sides_content hcursor
    · exact hlimit
  · have hfits : s.textLen+str.length ≤ kTextCapacity := by
      by_contra hfull
      exact hkeeps ⟨hne, not_le.mp hfull, by omega⟩
    have hinsert : s.insertAtCursor str = s.pushIn str := by
      rw [insertAtCursor, if_neg hne, s.room_fits str.length hfits]
      dsimp only
      rw [if_pos rfl]
    rw [hinsert]
    exact s.push_inserts str s hcursor hfits List.suffix_rfl (fun _ => rfl) List.suffix_rfl

/-- Behind the newer half of the text the insertion is as it should be unless the cursor
ends up in front of a split character. -/
theorem insert_dropped_iff (s : TextBuffer) (str : Bytes) (hcursor : s.cursor ≤ s.textLen)
    (hb : Boundary s.content s.cursor) (hstr : str.length ≤ kMaxDisplayBytes)
    (hdrops : s.Drops str) : Inserts s (s.insertAtCursor str) str ↔ ¬ s.EndsSplit str := by
  have hcap : kTextCapacity = 2048 := rfl
  have hmax : kMaxDisplayBytes = 256 := rfl
  obtain ⟨hne, hfull, hkeep⟩ := hdrops
  obtain ⟨hcontent, hle⟩ := s.newer_content hcursor hkeep
  have hlen : s.newerHalf.textLen = kTextCapacity/2 := rfl
  have hinsert : s.insertAtCursor str = s.newerHalf.pushIn str := by
    rw [insertAtCursor, if_neg hne, s.room_newer str.length hfull hkeep]
    dsimp only
    rw [if_pos (decide_eq_true (by omega))]
  rw [hinsert]
  constructor
  · rintro h ⟨-, hend, hcont⟩
    obtain ⟨-, hr⟩ := s.newerHalf.push_sides str hle
    have hright := h.right (fun _ => by omega)
    rw [hr] at hright
    have hrest := congrArg List.length hright
    rw [right, right, segment_length, segment_length, hend, Nat.sub_self, hlen] at hrest
    have hback := s.newer_split hkeep hend hcont
    omega
  · intro hsplit
    have hplace := s.newer_cursor hcursor hkeep hb (fun h => hsplit ⟨⟨hne, hfull, hkeep⟩, h⟩)
    obtain ⟨hl, hr⟩ := s.newer_sides hcursor hkeep hplace
    refine s.push_inserts str _ hle (by omega) ?_ ?_ ?_
    · rw [hl]
      exact List.drop_suffix _ _
    · intro hin
      have hzero : s.textLen-kTextCapacity/2-s.cursor = 0 :=
        Nat.sub_eq_zero_of_le (hin ⟨hne, hfull, hkeep⟩)
      rw [hr, hzero, List.drop_zero]
    · rw [hr]
      exact List.drop_suffix _ _

/-- An insertion does what it should unless the cursor at the end of the text is set
back. -/
theorem insert_iff (s : TextBuffer) (str : Bytes) (hcursor : s.cursor ≤ s.textLen)
    (hlimit : s.textLen ≤ kTextCapacity) (hb : Boundary s.content s.cursor)
    (hstr : str.length ≤ kMaxDisplayBytes) :
    Inserts s (s.insertAtCursor str) str ↔ ¬ s.EndsSplit str := by
  by_cases hdrops : s.Drops str
  · exact s.insert_dropped_iff str hcursor hb hstr hdrops
  · exact iff_of_true (s.insert_kept str hcursor hlimit hstr hdrops) (fun h => hdrops h.1)

/-- One byte and 1023 characters of two, in commits of at most 256 bytes. -/
def fullText : List Edit :=
  .commit (encode ('a'::List.replicate 127 'é'))::
    List.replicate 7 (.commit (encode (List.replicate 128 'é')))

def fullBuffer : TextBuffer := (exec step init fullText).getD init

/-- The full text with the cursor moved in front of its last character. -/
def movedBuffer : TextBuffer := (fullBuffer.onCursorMove .left).1

theorem moved_boundary : Boundary movedBuffer.content movedBuffer.cursor :=
  (boundary_segment ..).mpr (fun _ => by decide +kernel)

/-- Two letters go into a full text whose older half is dropped for them. -/
theorem insert_iff_dropped : movedBuffer.textLen = 2047 ∧ movedBuffer.cursor = 2045 ∧
    movedBuffer.Drops (encode ['x', 'y']) ∧
    Inserts movedBuffer (movedBuffer.insertAtCursor (encode ['x', 'y'])) (encode ['x', 'y']) := by
  have hlen : movedBuffer.textLen = 2047 := by decide +kernel
  have hcursor : movedBuffer.cursor = 2045 := by decide +kernel
  refine ⟨hlen, hcursor, ⟨by decide, ?_, ?_⟩, (insert_iff movedBuffer _ ?_ ?_ moved_boundary
    (by decide)).mpr ?_⟩
  · rw [hlen]
    decide
  · rw [hlen]
    decide
  · rw [hlen, hcursor]
    decide
  · rw [hlen]
    decide
  · rintro ⟨-, hend, -⟩
    rw [hlen, hcursor] at hend
    exact absurd hend (by decide)

/-- What is committed at the end of the text lands in front of its last character. -/
theorem inserted_in_front : fullBuffer.cursor = 2047 ∧ fullBuffer.textLen = 2047 ∧
    (fullBuffer.insertAtCursor (encode ['x', 'y'])).right = encode ['é'] ∧
    ¬ Inserts fullBuffer (fullBuffer.insertAtCursor (encode ['x', 'y'])) (encode ['x', 'y']) := by
  have hcursor : fullBuffer.cursor = 2047 := by decide +kernel
  have hlen : fullBuffer.textLen = 2047 := by decide +kernel
  have hright : (fullBuffer.insertAtCursor (encode ['x', 'y'])).right = encode ['é'] := by
    decide +kernel
  refine ⟨hcursor, hlen, hright, fun h => ?_⟩
  have hrest := h.rest.length_le
  rw [hright, right, segment_length, hcursor, hlen] at hrest
  exact absurd hrest (by decide)

end MokyaLora.Ime.TextBuffer
