import MokyaLora.TextBufferOk

/-!
# The context of the last two characters

The flags for the next word are set from at most two characters in front of the
cursor. They tell a space and a sentence that ended apart, but not a sentence that
ended before two spaces.
-/

set_option autoImplicit false

namespace MokyaLora.Ime
open Lib.Fields Lib.Memory Lib.Utf8

def kSentenceMarks : List Char := ['.', '?', '!', '。', '？', '！']

/-- A sentence ended, and two or more spaces follow. -/
def MarkFarBack (text : Bytes) : Prop :=
  ∃ front mark n, mark ∈ kSentenceMarks ∧ 2 ≤ n ∧
    text = front++(String.utf8EncodeChar mark++List.replicate n space)

/-- The context sets the flags that the text in front of the cursor would set. -/
def FlagsAgree (ime : ImeLogic) (s : TextBuffer) (ctx : Bytes) : Prop :=
  (ime.setTextContext ctx).enCapitalizeNext = (ime.setTextContext s.left).enCapitalizeNext ∧
  (ime.setTextContext ctx).enLastEndedWithSpace =
    (ime.setTextContext s.left).enLastEndedWithSpace

section Ends

theorem spaces_encode (n : ℕ) : encode (List.replicate n ' ') = List.replicate n space := by
  induction n with
  | zero => rfl
  | succ n ih =>
    rw [List.replicate_succ, List.replicate_succ, encode, List.flatMap_cons, ← encode, ih]
    rfl

theorem last_byte_iff (ds : List Char) (d c : Char) (b : UInt8) (hc : encode [c] = [b]) :
    (encode (ds++[d])).getLast? = some b ↔ c = d := by
  rw [← encode_suffix_iff ds d c, hc, List.getLast?_eq_some_iff]
  exact exists_congr (fun a => eq_comm)

theorem trailing_spaces (cs : List Char) :
    (∃ n, cs = List.replicate n ' ') ∨
    ∃ ds d n, d ≠ ' ' ∧ cs = ds++d::List.replicate n ' ' := by
  induction cs using List.reverseRecOn with
  | nil => exact .inl ⟨0, rfl⟩
  | append_singleton cs c ih =>
    by_cases hc : c = ' '
    · subst hc
      rcases ih with ⟨n, rfl⟩ | ⟨ds, d, n, hd, rfl⟩
      · exact .inl ⟨n+1, List.replicate_succ'.symm⟩
      · refine .inr ⟨ds, d, n+1, hd, ?_⟩
        rw [List.replicate_succ', List.append_assoc]
        rfl
    · exact .inr ⟨cs, c, 0, hc, rfl⟩

theorem trailing_unique (ds ts : List Char) (d e : Char) (n m : ℕ) (hd : d ≠ ' ') (he : e ≠ ' ')
    (h : ds++d::List.replicate n ' ' = ts++e::List.replicate m ' ') : d = e ∧ n = m := by
  have hrev := congrArg List.reverse h
  simp only [List.reverse_append, List.reverse_cons, List.reverse_replicate, List.append_assoc,
    List.singleton_append] at hrev
  induction n generalizing m with
  | zero =>
    cases m with
    | zero => exact ⟨(List.cons.inj hrev).1, rfl⟩
    | succ m => exact absurd (List.cons.inj hrev).1 hd
  | succ n ih =>
    cases m with
    | zero => exact absurd (List.cons.inj hrev).1.symm he
    | succ m =>
      rw [List.replicate_succ, List.replicate_succ, List.cons_append, List.cons_append] at hrev
      have htail := (List.cons.inj hrev).2
      have hshort : ds++d::List.replicate n ' ' = ts++e::List.replicate m ' ' := by
        apply List.reverse_injective
        simpa using htail
      obtain ⟨hde, hnm⟩ := ih m hshort htail
      exact ⟨hde, congrArg Nat.succ hnm⟩

theorem drop_spaces (t : Bytes) (n : ℕ) :
    (t++List.replicate n space).rdropWhile (fun b => b == space) =
      t.rdropWhile (fun b => b == space) := by
  induction n with
  | zero => rw [List.replicate_zero, List.append_nil]
  | succ n ih =>
    rw [List.replicate_succ', ← List.append_assoc, List.rdropWhile_concat_pos _ _ _ rfl, ih]

theorem trim_trailing (ds : List Char) (d : Char) (n : ℕ) (hd : d ≠ ' ') :
    trimSpaces (encode (ds++[d])++List.replicate n space) = encode (ds++[d]) := by
  have hlast : (encode (ds++[d])).getLast? ≠ some space :=
    fun h => hd ((last_byte_iff ds d ' ' space rfl).mp h).symm
  cases ht : encode (ds++[d]) with
  | nil =>
    have hnil := (encode_eq_nil _).mp ht
    simp at hnil
  | cons c t =>
    have hself : t.rdropWhile (fun b => b == space) = t := by
      rw [List.rdropWhile_eq_self_iff]
      intro hne hspace
      apply hlast
      rw [ht, List.getLast?_cons, List.getLast?_eq_getLast_of_ne_nil hne, Option.getD_some,
        beq_iff_eq.mp hspace]
    rw [List.cons_append, trimSpaces, drop_spaces, hself]

theorem spaces_no_sentence (n : ℕ) : endsSentence (List.replicate n space) = false := by
  cases n with
  | zero => decide
  | succ n =>
    have htrim : trimSpaces (List.replicate (n+1) space) = [space] := by
      rw [List.replicate_succ, trimSpaces, ← List.nil_append (List.replicate n space), drop_spaces]
      rfl
    rw [endsSentence, htrim]
    decide

theorem sentence_iff (ds : List Char) (d : Char) (n : ℕ) (hd : d ≠ ' ') :
    endsSentence (encode (ds++[d])++List.replicate n space) = decide (d ∈ kSentenceMarks) := by
  have hsuffix (c : Char) : (utf8 c).isSuffixOf (encode (ds++[d])) = decide (d = c) := by
    rw [Bool.eq_iff_iff, List.isSuffixOf_iff_suffix, decide_eq_true_iff, eq_comm (a := d),
      ← encode_suffix_iff ds d c, encode_singleton]
    exact Iff.rfl
  have hbyte : (encode (ds++[d])).getLast?.any (fun c => c == 0x2E || c == 0x3F || c == 0x21) =
      decide (d = '.' ∨ d = '?' ∨ d = '!') := by
    have hiff (c : Char) (b : UInt8) (hc : encode [c] = [b]) :
        (encode (ds++[d])).getLast? = some b ↔ d = c :=
      (last_byte_iff ds d c b hc).trans eq_comm
    rw [Bool.eq_iff_iff, decide_eq_true_iff, ← hiff '.' 0x2E rfl, ← hiff '?' 0x3F rfl,
      ← hiff '!' 0x21 rfl]
    cases (encode (ds++[d])).getLast? with
    | none => simp
    | some b => simp [or_assoc]
  rw [endsSentence, trim_trailing ds d n hd, hbyte]
  simp [hsuffix, kSentenceMarks, Bool.or_assoc]

end Ends

section Flags

theorem mark_far_back_iff (cs : List Char) : MarkFarBack (encode cs) ↔
    ∃ ds mark n, mark ∈ kSentenceMarks ∧ 2 ≤ n ∧ cs = ds++mark::List.replicate n ' ' := by
  have hcons (mark : Char) (n : ℕ) : String.utf8EncodeChar mark++List.replicate n space =
      encode (mark::List.replicate n ' ') := by
    rw [← spaces_encode, encode, encode, List.flatMap_cons]
  constructor
  · rintro ⟨front, mark, n, hmark, hn, h⟩
    rw [hcons] at h
    have hwf : WellFormed (front++encode (mark::List.replicate n ' ')) := ⟨cs, h.symm⟩
    obtain ⟨ds, rfl⟩ := well_formed_front hwf ⟨_, rfl⟩
    rw [← encode_append] at h
    exact ⟨ds, mark, n, hmark, hn, encode_injective h⟩
  · rintro ⟨ds, mark, n, hmark, hn, rfl⟩
    exact ⟨encode ds, mark, n, hmark, hn, by rw [hcons, encode_append]⟩

theorem marks_nonblank (c : Char) (h : c ∈ kSentenceMarks) : c ≠ ' ' := by
  rintro rfl
  exact absurd h (by decide)

def lastTwo (cs : List Char) : List Char := cs.drop (cs.length-2)

theorem last_two_append (xs : List Char) (c d : Char) : lastTwo (xs++[c, d]) = [c, d] := by
  rw [lastTwo, List.length_append]
  exact List.drop_left

theorem last_two_concat (ds : List Char) (d : Char) : ∃ ts, lastTwo (ds++[d]) = ts++[d] := by
  refine ⟨ds.drop (ds.length-1), ?_⟩
  rw [lastTwo, List.length_append, List.drop_append_of_le_length (by simp)]
  rfl

theorem encode_spaced (ds : List Char) (d : Char) (n : ℕ) :
    encode (ds++d::List.replicate n ' ') = encode (ds++[d])++List.replicate n space := by
  rw [← spaces_encode, ← encode_append, List.append_assoc]
  rfl

theorem last_two_sentence (cs : List Char) :
    endsSentence (encode (lastTwo cs)) = endsSentence (encode cs) ↔ ¬ MarkFarBack (encode cs) := by
  rw [mark_far_back_iff]
  rcases trailing_spaces cs with ⟨n, rfl⟩ | ⟨ds, d, n, hd, rfl⟩
  · have hspaces : lastTwo (List.replicate n ' ') = List.replicate (n-(n-2)) ' ' := by
      rw [lastTwo, List.length_replicate, List.drop_replicate]
    rw [hspaces, spaces_encode, spaces_encode, spaces_no_sentence, spaces_no_sentence]
    refine iff_of_true rfl ?_
    rintro ⟨ds, mark, k, hmark, -, h⟩
    have hmem : mark ∈ List.replicate n ' ' := by simp [h]
    exact marks_nonblank mark hmark (List.eq_of_mem_replicate hmem)
  · have hfar : (∃ ts mark m, mark ∈ kSentenceMarks ∧ 2 ≤ m ∧
        ds++d::List.replicate n ' ' = ts++mark::List.replicate m ' ') ↔
        d ∈ kSentenceMarks ∧ 2 ≤ n := by
      constructor
      · rintro ⟨ts, mark, m, hmark, hm, h⟩
        obtain ⟨rfl, rfl⟩ := trailing_unique ds ts d mark n m hd (marks_nonblank mark hmark) h
        exact ⟨hmark, hm⟩
      · exact fun h => ⟨ds, d, n, h.1, h.2, rfl⟩
    rw [hfar, encode_spaced, sentence_iff ds d n hd]
    by_cases hn : 2 ≤ n
    · have htwo : lastTwo (ds++d::List.replicate n ' ') = List.replicate 2 ' ' := by
        obtain ⟨k, rfl⟩ := Nat.exists_eq_add_of_le' hn
        have hsplit : ds++d::List.replicate (k+2) ' ' = (ds++d::List.replicate k ' ')++[' ', ' '] := by
          rw [List.replicate_add, List.append_assoc]
          rfl
        rw [hsplit, last_two_append]
        rfl
      rw [htwo, spaces_encode, spaces_no_sentence]
      simp [hn]
    · have hone : ∃ ts, lastTwo (ds++d::List.replicate n ' ') = ts++d::List.replicate n ' ' := by
        rcases Nat.lt_or_ge n 1 with hzero | hpos
        · obtain rfl : n = 0 := Nat.lt_one_iff.mp hzero
          exact last_two_concat ds d
        · obtain rfl : n = 1 := by omega
          exact ⟨[], last_two_append ds d ' '⟩
      obtain ⟨ts, hts⟩ := hone
      rw [hts, encode_spaced, sentence_iff ts d n hd]
      simp [hn]

theorem last_two_space (cs : List Char) :
    endsWithSpace (encode (lastTwo cs)) = endsWithSpace (encode cs) := by
  have hlast (ds : List Char) (d : Char) :
      endsWithSpace (encode (ds++[d])) = decide (d = ' ' ∨ d = '　') := by
    have hbyte : (encode (ds++[d])).getLast? = some space ↔ d = ' ' :=
      (last_byte_iff ds d ' ' space rfl).trans eq_comm
    have hwide : ideographicSpace.isSuffixOf (encode (ds++[d])) = true ↔ d = '　' := by
      rw [List.isSuffixOf_iff_suffix, eq_comm, ← encode_suffix_iff ds d '　']
      exact Iff.rfl
    rw [endsWithSpace, Bool.eq_iff_iff, Bool.or_eq_true, beq_iff_eq, hbyte, hwide,
      decide_eq_true_iff]
  induction cs using List.reverseRecOn with
  | nil => rfl
  | append_singleton ds d ih =>
    obtain ⟨ts, hts⟩ := last_two_concat ds d
    rw [hts, hlast, hlast]

end Flags

section Window

variable (s : TextBuffer)

theorem step_back_skip (b : Buffer) (p k : ℕ) (hp : continues (b p) = false)
    (hk : ∀ i, p < i → i ≤ p+k → continues (b i) = true) : TextBuffer.stepBack b (p+k) = p := by
  induction k with
  | zero =>
    cases p with
    | zero => rfl
    | succ p => rw [Nat.add_zero, TextBuffer.stepBack, if_neg (Bool.eq_false_iff.mp hp)]
  | succ k ih =>
    have hlast : continues (b (p+k+1)) = true := hk _ (by omega) (by omega)
    rw [← Nat.add_assoc, TextBuffer.stepBack, if_pos hlast]
    exact ih (fun i hi hle => hk i hi (by omega))

theorem prev_boundary_char (pos : ℕ) (cs : List Char) (c : Char)
    (h : segment s.text 0 pos = encode (cs++[c])) : s.prevBoundary pos = (encode cs).length := by
  obtain ⟨x, xs, hc, hx, hxs⟩ := encode_char c
  have hbytes : segment s.text 0 pos = encode cs++(x::xs) := by
    rw [h, encode_append, encode_singleton, hc]
  have hlen : pos = (encode cs).length+(xs.length+1) := by
    have hl := congrArg List.length hbytes
    rwa [segment_length, List.length_append, List.length_cons] at hl
  have hget (i : ℕ) (hi : i < pos) : (encode cs++(x::xs))[i]? = some (s.text i) := by
    rw [← hbytes, segment_get _ _ _ _ hi, Nat.zero_add]
  have hfirst : s.text (encode cs).length = x := by
    have hg := hget (encode cs).length (by omega)
    rw [List.getElem?_append_right (le_refl _), Nat.sub_self] at hg
    exact (Option.some.inj hg).symm
  have hback : pos-1 = (encode cs).length+xs.length := by omega
  rw [TextBuffer.prevBoundary, if_neg (by omega), hback]
  apply step_back_skip
  · rw [hfirst]
    exact hx
  · intro i hi hle
    have hg := hget i (by omega)
    rw [List.getElem?_append_right (by omega), List.getElem?_cons, if_neg (by omega)] at hg
    exact hxs _ (List.mem_of_getElem? hg)

theorem encode_length_le (cs : List Char) : (encode cs).length ≤ 4*cs.length := by
  induction cs with
  | nil => exact Nat.zero_le _
  | cons c cs ih =>
    have hc := c.utf8Size_le_four
    rw [encode, List.flatMap_cons, List.length_append, String.length_utf8EncodeChar,
      List.length_cons, ← encode]
    omega

theorem window_bytes (front back : List Char) (h : s.left = encode (front++back))
    (hb : back.length ≤ 2) : segment s.text (encode front).length
      (min (s.cursor-(encode front).length) 15) = encode back := by
  have hlen := congrArg List.length h
  rw [TextBuffer.left, segment_length, encode_append, List.length_append] at hlen
  have hshort := encode_length_le back
  have hdrop := congrArg (List.drop (encode front).length) h
  rw [TextBuffer.left, segment_drop _ _ _ _ (by omega), encode_append, List.drop_left,
    Nat.zero_add] at hdrop
  rw [Nat.min_eq_left (by omega), hdrop]

theorem extract_ctx_eq (cs : List Char) (h : s.left = encode cs) :
    s.extractCtx = encode (lastTwo cs) := by
  have hlen : s.cursor = (encode cs).length := by
    rw [← h, TextBuffer.left, segment_length]
  have hprev (ds es : List Char) (d : Char) (hcs : cs = ds++[d]++es) :
      0 < (encode (ds++[d])).length ∧
      s.prevBoundary (encode (ds++[d])).length = (encode ds).length := by
    constructor
    · rw [List.length_pos_iff, ne_eq, encode_eq_nil]
      simp
    · apply prev_boundary_char s _ ds d
      have htake := congrArg (List.take (encode (ds++[d])).length) h
      have hle : (encode (ds++[d])).length ≤ s.cursor := by
        rw [hlen, hcs, encode_append (ds++[d]) es, List.length_append]
        exact Nat.le_add_right _ _
      rwa [TextBuffer.left, segment_take _ _ _ _ hle, hcs, encode_append (ds++[d]) es,
        List.take_left] at htake
  have hfold : (List.range 2).foldl
      (fun start _ => if 0 < start then s.prevBoundary start else start) s.cursor =
      (encode (cs.take (cs.length-2))).length := by
    rw [List.range_succ, List.range_one, List.foldl_append, List.foldl_cons, List.foldl_nil,
      List.foldl_cons, List.foldl_nil, hlen]
    rcases List.eq_nil_or_concat' cs with rfl | ⟨ds, d, rfl⟩
    · rfl
    · obtain ⟨hpos, hone⟩ := hprev ds [] d (List.append_nil _).symm
      rw [if_pos hpos, hone]
      rcases List.eq_nil_or_concat' ds with rfl | ⟨es, e, rfl⟩
      · rfl
      · obtain ⟨hpos', htwo⟩ := hprev es [d] e rfl
        have htake : (es++[e]++[d]).take ((es++[e]++[d]).length-2) = es := by simp
        rw [if_pos hpos', htwo, htake]
  have hcut := window_bytes s (cs.take (cs.length-2)) (cs.drop (cs.length-2))
    (by rw [List.take_append_drop, h]) (by rw [List.length_drop]; omega)
  rw [TextBuffer.extractCtx]
  split
  · rename_i hzero
    have hnil : cs = [] := (encode_eq_nil cs).mp (List.length_eq_zero_iff.mp (hlen ▸ hzero))
    rw [hnil]
    rfl
  · dsimp only
    rw [hfold, hcut, lastTwo]

end Window

/-- In a whole text, the context sets the flags that the text in front of the cursor
would set, unless a sentence ended there in front of two spaces or more. -/
theorem context_suffices_iff (ime : ImeLogic) (s : TextBuffer) (h : s.Ok) :
    (∀ d, FlagsAgree ime (s.onCursorMove d).1 (s.onCursorMove d).2 ↔
      ¬ MarkFarBack (s.onCursorMove d).1.left) ∧
    (FlagsAgree ime s.onDeleteBefore.1 s.onDeleteBefore.2 ↔
      ¬ MarkFarBack s.onDeleteBefore.1.left) := by
  have hall (t : TextBuffer) (ht : t.Ok) :
      FlagsAgree ime t t.extractCtx ↔ ¬ MarkFarBack t.left := by
    obtain ⟨cs, hcs⟩ := (TextBuffer.Ok.sides t ht).1
    have hctx := extract_ctx_eq t cs hcs
    rw [FlagsAgree, hctx, hcs, ← last_two_sentence cs]
    by_cases hnil : cs = []
    · subst hnil
      exact iff_of_true ⟨rfl, rfl⟩ rfl
    · have hwhole : encode cs ≠ [] := fun hc => hnil ((encode_eq_nil cs).mp hc)
      have hwindow : encode (lastTwo cs) ≠ [] := by
        obtain ⟨ds, d, rfl⟩ := (List.eq_nil_or_concat' cs).resolve_left hnil
        obtain ⟨ts, hts⟩ := last_two_concat ds d
        rw [hts, ne_eq, encode_eq_nil]
        simp
      rw [ImeLogic.setTextContext, ImeLogic.setTextContext, if_neg hwhole, if_neg hwindow]
      exact and_iff_left (last_two_space cs)
  exact ⟨fun d => hall _ (s.cursor_move_ok h d), hall _ (s.delete_ok h)⟩

/-- A sentence, a space and a letter, with the cursor moved in front of the letter. -/
def insideText : TextBuffer :=
  ((TextBuffer.init.onCommit (encode ['a', '.', ' ', 'b'])).onCursorMove .left).1

theorem inside_text_ok : insideText.Ok :=
  TextBuffer.cursor_move_ok _ ((TextBuffer.commit_ok_iff _ _ TextBuffer.init_ok ⟨_, rfl⟩).mpr
    (.inl (by decide))) .left

/-- A move to the left leaves the full stop, and so does a deletion; the next word is
capitalized there. -/
theorem context_suffices_inside : insideText.left = encode ['a', '.', ' '] ∧
    (insideText.onCursorMove .left).1.left = encode ['a', '.'] ∧
    insideText.onDeleteBefore.1.left = encode ['a', '.'] ∧
    (ImeLogic.init.setTextContext insideText.onDeleteBefore.2).enCapitalizeNext = true ∧
    (∀ d, FlagsAgree .init (insideText.onCursorMove d).1 (insideText.onCursorMove d).2 ↔
      ¬ MarkFarBack (insideText.onCursorMove d).1.left) ∧
    (FlagsAgree .init insideText.onDeleteBefore.1 insideText.onDeleteBefore.2 ↔
      ¬ MarkFarBack insideText.onDeleteBefore.1.left) :=
  ⟨by decide +kernel, by decide +kernel, by decide +kernel, by decide +kernel,
    context_suffices_iff .init insideText inside_text_ok⟩

/-- A sentence, two spaces and a letter, with the cursor moved in front of the letter. -/
def beforeLetter : TextBuffer × Bytes :=
  (TextBuffer.init.onCommit (encode ['a', '.', ' ', ' ', 'b'])).onCursorMove .left

/-- The context is two spaces, and the next word is not capitalized. -/
theorem two_spaces : beforeLetter.2 = [space, space] ∧
    beforeLetter.1.left = encode ['a', '.', ' ', ' '] ∧
    (ImeLogic.init.setTextContext beforeLetter.2).enCapitalizeNext = false ∧
    (ImeLogic.init.setTextContext beforeLetter.1.left).enCapitalizeNext = true ∧
    ¬ FlagsAgree .init beforeLetter.1 beforeLetter.2 := by
  have hwindow : (ImeLogic.init.setTextContext beforeLetter.2).enCapitalizeNext = false := by
    decide +kernel
  have hwhole : (ImeLogic.init.setTextContext beforeLetter.1.left).enCapitalizeNext = true := by
    decide +kernel
  refine ⟨by decide +kernel, by decide +kernel, hwindow, hwhole, fun h => ?_⟩
  rw [FlagsAgree, hwindow, hwhole] at h
  exact Bool.noConfusion h.1

end MokyaLora.Ime
