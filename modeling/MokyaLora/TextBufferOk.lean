import MokyaLora.TextBuffer

/-!
# Edits that keep the text whole

Moves and deletions go from boundary to boundary. A commit keeps the text a string
exactly if what it cuts off, of the text or of itself, ends at a boundary.
-/

set_option autoImplicit false

namespace MokyaLora.Ime.TextBuffer
open Lib.Fields Lib.Memory Lib.Utf8 Lib.Schedule

section Steps

variable (b : Buffer) (n pos : ℕ)

theorem boundary_segment : Boundary (segment b 0 n) pos ↔ (pos < n → continues (b pos) = false) := by
  by_cases h : pos < n
  · simp only [Boundary, segment_get b 0 n pos h, Nat.zero_add, Option.some.injEq]
    exact ⟨fun hb _ => hb _ rfl, fun hb x hx => hx ▸ hb h⟩
  · exact iff_of_true (boundary_length _ _ (by simpa using h)) (fun hlt => absurd hlt h)

theorem step_back_le : stepBack b pos ≤ pos := by
  induction pos with
  | zero => exact le_refl 0
  | succ pos ih =>
    rw [stepBack]
    split
    · exact Nat.le_succ_of_le ih
    · exact le_refl _

theorem step_back_stops : stepBack b pos = 0 ∨ continues (b (stepBack b pos)) = false := by
  induction pos with
  | zero => exact .inl rfl
  | succ pos ih =>
    rw [stepBack]
    split
    · exact ih
    · rename_i h
      exact .inr (Bool.eq_false_iff.mpr h)

theorem step_forward_stops : pos ≤ stepForward b n pos ∧ stepForward b n pos ≤ pos+n ∧
    (stepForward b n pos = pos+n ∨ continues (b (stepForward b n pos)) = false) := by
  induction n generalizing pos with
  | zero => exact ⟨le_refl _, le_refl _, .inl rfl⟩
  | succ n ih =>
    rw [stepForward]
    split
    · obtain ⟨hlo, hup, hstop⟩ := ih (pos+1)
      rw [Nat.add_assoc, Nat.add_comm 1 n] at hup hstop
      exact ⟨Nat.le_of_succ_le hlo, hup, hstop⟩
    · rename_i h
      exact ⟨le_refl _, Nat.le_add_right _ _, .inr (Bool.eq_false_iff.mpr h)⟩

theorem step_back_boundary (h : WellFormed (segment b 0 n)) :
    Boundary (segment b 0 n) (stepBack b pos) := by
  rcases step_back_stops b pos with hzero | hstop
  · rw [hzero]
    exact boundary_zero h
  · exact (boundary_segment b n _).mpr (fun _ => hstop)

end Steps

section Edits

variable (s : TextBuffer)

theorem content_length : s.content.length = s.textLen := segment_length _ _ _

theorem prev_boundary_le (pos : ℕ) : s.prevBoundary pos ≤ pos := by
  rw [prevBoundary]
  split
  · exact Nat.zero_le _
  · exact le_trans (step_back_le s.text (pos-1)) (Nat.sub_le _ _)

theorem prev_boundary_boundary (h : WellFormed s.content) (pos : ℕ) :
    Boundary s.content (s.prevBoundary pos) := by
  rw [prevBoundary]
  split
  · exact boundary_zero h
  · exact step_back_boundary s.text s.textLen (pos-1) h

theorem next_boundary_spec (pos : ℕ) :
    s.nextBoundary pos ≤ s.textLen ∧ Boundary s.content (s.nextBoundary pos) := by
  rw [nextBoundary]
  split
  · exact ⟨le_refl _, boundary_length _ _ (le_of_eq s.content_length)⟩
  · rename_i hlt
    obtain ⟨-, hup, hstop⟩ := step_forward_stops s.text (s.textLen-(pos+1)) (pos+1)
    rw [Nat.add_sub_of_le (Nat.succ_le_of_lt (not_le.mp hlt))] at hup hstop
    refine ⟨hup, (boundary_segment s.text s.textLen _).mpr ?_⟩
    intro hin
    exact hstop.resolve_left (Nat.ne_of_lt hin)

/-- The text in front of the cursor and behind it. -/
def left : Bytes := segment s.text 0 s.cursor

def right : Bytes := segment s.text s.cursor (s.textLen-s.cursor)

theorem content_cut (h : s.cursor ≤ s.textLen) :
    s.content.take s.cursor = s.left ∧ s.content.drop s.cursor = s.right := by
  rw [content, segment_take _ _ _ _ h, segment_drop _ _ _ _ h, Nat.zero_add]
  exact ⟨rfl, rfl⟩

theorem Ok.sides (h : Ok s) : WellFormed s.left ∧ WellFormed s.right := by
  have hcut := well_formed_cut h.wellFormed s.cursor h.boundary
  rwa [(s.content_cut h.cursor).1, (s.content_cut h.cursor).2] at hcut

theorem ok_of_sides (a b : Bytes) (ha : WellFormed a) (hb : WellFormed b) (hs : s.content = a++b)
    (hc : s.cursor = a.length) (hlimit : s.textLen ≤ kTextCapacity) (hnul : s.text s.textLen = 0) :
    Ok s where
  cursor := by
    rw [hc, ← s.content_length, hs, List.length_append]
    exact Nat.le_add_right _ _
  limit := hlimit
  nul := hnul
  wellFormed := hs ▸ well_formed_append ha hb
  boundary := by
    rw [hs, hc]
    exact boundary_append hb

theorem cursor_move_ok (h : Ok s) (d : NavDir) : Ok (s.onCursorMove d).1 := by
  cases d with
  | left => exact ⟨le_trans (s.prev_boundary_le _) h.cursor, h.limit, h.nul, h.wellFormed,
      s.prev_boundary_boundary h.wellFormed _⟩
  | right => exact ⟨(s.next_boundary_spec _).1, h.limit, h.nul, h.wellFormed,
      (s.next_boundary_spec _).2⟩
  | up => exact h
  | down => exact h

theorem delete_ok (h : Ok s) : Ok s.deleteBeforeCursor := by
  have hprev := s.prev_boundary_le s.cursor
  have hcut := well_formed_cut h.wellFormed _ (s.prev_boundary_boundary h.wellFormed s.cursor)
  have hle := h.cursor
  rw [content, segment_take _ _ _ _ (by omega)] at hcut
  rw [deleteBeforeCursor]
  split
  · exact h
  · apply ok_of_sides _ (segment s.text 0 (s.prevBoundary s.cursor)) s.right hcut.1 h.sides.2
    · exact segment_delete s.text _ _ _ 0 hprev hle
    · exact (segment_length _ _ _).symm
    · exact le_trans (Nat.sub_le _ _) h.limit
    · exact store_self _ _ _

theorem clear_ok : Ok s.clearText :=
  ok_of_sides _ [] [] well_formed_nil well_formed_nil rfl rfl (Nat.zero_le _)
    (store_self s.text 0 0)

end Edits

section Commits

variable (s : TextBuffer) (str : Bytes)

theorem push_ok (hc : s.cursor ≤ s.textLen) (hroom : s.textLen+str.length ≤ kTextCapacity) :
    Ok (s.pushIn str) ↔ WellFormed (s.left++str) ∧ WellFormed s.right := by
  have hcontent : (s.pushIn str).content = (s.left++str)++s.right := by
    rw [List.append_assoc]
    exact segment_insert s.text s.cursor s.textLen str 0 hc
  have hcursor : (s.pushIn str).cursor = (s.left++str).length := by
    rw [List.length_append, left, segment_length, pushIn]
  constructor
  · intro h
    have hcut := well_formed_cut h.wellFormed _ h.boundary
    rwa [hcontent, hcursor, List.take_left, List.drop_left] at hcut
  · rintro ⟨hl, hr⟩
    exact ok_of_sides _ _ _ hl hr hcontent hcursor hroom (store_self _ _ _)

theorem push_take_ok (h : Ok s) (hstr : WellFormed str) (n : ℕ)
    (hroom : s.textLen+(str.take n).length ≤ kTextCapacity) :
    Ok (s.pushIn (str.take n)) ↔ Boundary str n := by
  obtain ⟨hl, hr⟩ := h.sides
  rw [push_ok s _ h.cursor hroom]
  constructor
  · rintro ⟨hleft, -⟩
    exact boundary_of_cut hstr n (well_formed_cancel hleft hl)
  · intro hn
    exact ⟨well_formed_append hl (well_formed_cut hstr n hn).1, hr⟩

theorem room_fits (need : ℕ) (h : s.textLen+need ≤ kTextCapacity) :
    s.makeRoomFor need = (s, true) := by
  rw [makeRoomFor, if_pos h]

theorem room_short (need : ℕ) (h : kTextCapacity < s.textLen+need)
    (hkeep : s.textLen ≤ kTextCapacity/2) : s.makeRoomFor need = (s, false) := by
  rw [makeRoomFor, if_neg (not_le.mpr h)]
  dsimp only
  rw [if_neg (not_lt.mpr hkeep)]

theorem room_cut (need : ℕ) (hcursor : s.cursor ≤ s.textLen) (h : kTextCapacity < s.textLen+need)
    (hkeep : kTextCapacity/2 < s.textLen) :
    ∃ u, s.makeRoomFor need = (u, decide (kTextCapacity/2+need ≤ kTextCapacity)) ∧
      u.textLen = kTextCapacity/2 ∧ u.cursor ≤ u.textLen ∧
      u.content = s.content.drop (s.textLen-kTextCapacity/2) ∧ u.text u.textLen = 0 ∧
      (WellFormed u.content → Boundary u.content u.cursor) := by
  rw [makeRoomFor, if_neg (not_le.mpr h)]
  dsimp only
  rw [if_pos hkeep]
  generalize kTextCapacity/2 = keep at hkeep ⊢
  refine ⟨_, rfl, rfl, ?_, ?_, store_self _ _ _, ?_⟩
  · exact le_trans (step_back_le _ _) (by dsimp only; omega)
  · rw [content, segment_store _ _ _ _ _ (by dsimp only; omega), segment_move, content,
      segment_drop _ _ _ _ (by omega), Nat.zero_add]
    congr 1
    omega
  · rw [content, segment_store _ _ _ _ _ (by dsimp only; omega)]
    exact step_back_boundary _ _ _

theorem commit_eq (hne : str ≠ []) (hcursor : s.cursor ≤ s.textLen) (hlimit : s.textLen ≤ kTextCapacity) :
    s.onCommit str = (s.makeRoomFor str.length).1.pushIn
      (str.take (kTextCapacity-(s.makeRoomFor str.length).1.textLen)) := by
  have hpos := List.length_pos_iff.mpr hne
  have hcap : kTextCapacity = 2048 := rfl
  rw [onCommit, if_neg hne, insertAtCursor, if_neg hne]
  rcases Nat.lt_or_ge kTextCapacity (s.textLen+str.length) with hfull | hfit
  · rcases Nat.lt_or_ge (kTextCapacity/2) s.textLen with hkeep | hkeep
    · obtain ⟨u, hu, hlen, -⟩ := s.room_cut str.length hcursor hfull hkeep
      rw [hu]
      dsimp only
      split
      · rename_i hfit
        rw [decide_eq_true_iff] at hfit
        rw [List.take_of_length_le (by omega)]
      · rw [if_neg (by omega)]
    · rw [s.room_short str.length hfull hkeep]
      dsimp only
      rw [if_neg Bool.false_ne_true, if_neg (by omega)]
  · rw [s.room_fits str.length hfit]
    dsimp only
    rw [if_pos rfl, List.take_of_length_le (by omega)]

/-- Where the newer half does not start with a character, no insertion makes it a text. -/
theorem push_broken (hc : s.cursor ≤ s.textLen) (x : UInt8) (hx : s.content[0]? = some x)
    (hcont : continues x = true) (hroom : s.textLen+str.length ≤ kTextCapacity) :
    ¬ Ok (s.pushIn str) := by
  rw [push_ok s str hc hroom]
  rintro ⟨hl, hr⟩
  have hfalse : continues x = false := by
    rcases Nat.eq_zero_or_pos s.cursor with hzero | hpos
    · apply boundary_zero hr x
      rw [← (s.content_cut hc).2, hzero, List.drop_zero]
      exact hx
    · apply boundary_zero hl x
      rw [List.getElem?_append_left (by simpa [left] using hpos), ← (s.content_cut hc).1,
        List.getElem?_take_of_lt hpos]
      exact hx
  rw [hcont] at hfalse
  cases hfalse

/-- After the buffer was cut, a boundary at the start of its newer half is needed too. -/
theorem cut_ok_iff (h : Ok s) (hstr : WellFormed str) (need : ℕ)
    (hfull : kTextCapacity < s.textLen+need) (hkeep : kTextCapacity/2 < s.textLen) :
    Ok ((s.makeRoomFor need).1.pushIn
      (str.take (kTextCapacity-(s.makeRoomFor need).1.textLen))) ↔
    continues (s.text (s.textLen-kTextCapacity/2)) = false ∧
      Boundary str (kTextCapacity-kTextCapacity/2) := by
  have hcap : kTextCapacity = 2048 := rfl
  obtain ⟨u, hu, hlen, hcursor, hcontent, hnul, hb⟩ := s.room_cut need h.cursor hfull hkeep
  have hroom : u.textLen+(str.take (kTextCapacity-u.textLen)).length ≤ kTextCapacity := by
    rw [List.length_take]
    omega
  rw [hu]
  dsimp only
  by_cases hstart : continues (s.text (s.textLen-kTextCapacity/2)) = false
  · have hwf : WellFormed u.content := by
      rw [hcontent]
      apply (well_formed_cut h.wellFormed _ _).2
      exact (boundary_segment _ _ _).mpr (fun _ => hstart)
    have hok : Ok u := ⟨hcursor, by omega, hnul, hwf, hb hwf⟩
    rw [push_take_ok u str hok hstr _ hroom, hlen]
    exact ⟨fun hn => ⟨hstart, hn⟩, fun hn => hn.2⟩
  · have hget : u.content[0]? = some (s.text (s.textLen-kTextCapacity/2)) := by
      rw [hcontent, List.getElem?_drop, Nat.add_zero, content, segment_get _ _ _ _ (by omega),
        Nat.zero_add]
    apply iff_of_false
    · exact push_broken u _ hcursor _ hget (by simpa using hstart) hroom
    · exact fun hclean => hstart hclean.1

theorem commit_ok_iff (h : Ok s) (hstr : WellFormed str) : Ok (s.onCommit str) ↔ s.CutsClean str := by
  have hlimit := h.limit
  have htake : (str.take (kTextCapacity-s.textLen)).length ≤ kTextCapacity-s.textLen :=
    List.length_take_le _ _
  by_cases hne : str = []
  · rw [onCommit, if_pos hne, CutsClean, hne]
    exact iff_of_true h (.inl (by simpa using hlimit))
  · rw [s.commit_eq str hne h.cursor hlimit, CutsClean]
    rcases Nat.lt_or_ge kTextCapacity (s.textLen+str.length) with hfull | hfit
    · rw [or_iff_right (not_le.mpr hfull)]
      rcases Nat.lt_or_ge (kTextCapacity/2) s.textLen with hkeep | hkeep
      · rw [s.cut_ok_iff str h hstr _ hfull hkeep, Nat.min_eq_right (le_of_lt hkeep)]
        exact and_congr_left' ⟨fun hclean _ => hclean, fun hclean => hclean hkeep⟩
      · rw [s.room_short str.length hfull hkeep]
        dsimp only
        rw [push_take_ok s str h hstr _ (by omega), Nat.min_eq_left hkeep]
        exact ⟨fun hn => ⟨fun hlt => absurd hlt (not_lt.mpr hkeep), hn⟩, fun hn => hn.2⟩
    · rw [s.room_fits str.length hfit]
      dsimp only
      rw [push_take_ok s str h hstr _ (by omega)]
      exact iff_of_true (boundary_length _ _ (by omega)) (.inl hfit)

end Commits

theorem init_ok : Ok init :=
  ok_of_sides _ [] [] well_formed_nil well_formed_nil rfl rfl (Nat.zero_le _) rfl

theorem apply_ok (s : TextBuffer) (h : Ok s) (e : Edit)
    (he : ∀ str, e = .commit str → WellFormed str) : Ok (s.apply e) ↔ s.Whole e := by
  cases e with
  | commit str => exact s.commit_ok_iff str h (he str rfl)
  | cursorMove d => exact iff_of_true (s.cursor_move_ok h d) trivial
  | deleteBefore => exact iff_of_true (s.delete_ok h) trivial
  | clearText => exact iff_of_true s.clear_ok trivial

/-- In a run of commits, moves and deletions the text stays a string with the cursor on
a boundary exactly if no commit cuts a character. -/
theorem text_buffer_ok (es : List Edit) (hes : ∀ str, .commit str ∈ es → WellFormed str) :
    Along step (fun s e => Ok (s.apply e)) init es ↔ Along step Whole init es := by
  have hrun : ∀ s : TextBuffer, Ok s →
      (Along step (fun s e => Ok (s.apply e)) s es ↔ Along step Whole s es) := by
    induction es with
    | nil => exact fun _ _ => Iff.rfl
    | cons e es ih =>
      intro s hs
      have he := apply_ok s hs e (fun str heq => hes str (heq ▸ List.mem_cons_self ..))
      have hrest := ih (fun str hmem => hes str (List.mem_cons_of_mem e hmem))
      constructor
      · rintro ⟨hok, hafter⟩
        exact ⟨he.mp hok, fun t ht => (hrest t (Option.some.inj ht ▸ hok)).mp (hafter t ht)⟩
      · rintro ⟨hwhole, hafter⟩
        have hok := he.mpr hwhole
        exact ⟨hok, fun t ht => (hrest t (Option.some.inj ht ▸ hok)).mpr (hafter t ht)⟩
  exact hrun init init_ok

/-- A character, a move over it and its deletion. -/
theorem one_character : Along step (fun s e => Ok (s.apply e)) init
    [.commit (encode ['é']), .cursorMove .left, .deleteBefore] := by
  refine (text_buffer_ok _ ?_).mpr ?_
  · intro str hmem
    simp only [List.mem_cons, Edit.commit.injEq, reduceCtorEq, List.not_mem_nil, or_false] at hmem
    exact hmem ▸ ⟨_, rfl⟩
  · exact ⟨.inl (by decide), fun _ _ => ⟨trivial, fun _ _ => ⟨trivial, fun _ _ => trivial⟩⟩⟩

/-- A text of 2047 bytes, and one more character of two. -/
def longText : List Edit :=
  [.commit (encode (List.replicate 1023 'é'++['a'])), .commit (encode ['é'])]

/-- The text starts in the middle of a character. -/
theorem half_character : (∀ str, .commit str ∈ longText → WellFormed str) ∧
    (exec step init longText).map (fun s => s.content[0]?) = some (some 0xA9) ∧
    ¬ Along step (fun s e => Ok (s.apply e)) init longText := by
  have hstart : (exec step init longText).map (fun s => s.content[0]?) = some (some 0xA9) := by
    decide +kernel
  refine ⟨?_, hstart, ?_⟩
  · intro str hmem
    simp only [longText, List.mem_cons, Edit.commit.injEq, List.not_mem_nil, or_false] at hmem
    rcases hmem with rfl | rfl
    · exact ⟨_, rfl⟩
    · exact ⟨_, rfl⟩
  · rintro ⟨-, hafter⟩
    have hok := (hafter _ rfl).1
    have hfalse := boundary_zero hok.wellFormed 0xA9 (Option.some.inj hstart)
    exact absurd hfalse (by decide)

end MokyaLora.Ime.TextBuffer
