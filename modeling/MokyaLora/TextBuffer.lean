import MokyaLora.ImeState
import MokyaLora.Lib.Schedule
import MokyaLora.Lib.Utf8

/-!
# The text buffer of the listener

Committed text is inserted at the cursor. When it does not fit, the buffer is cut to
its newer half, and when that does not help, the text is cut. The bytes behind the
text stay what they were.
-/

set_option autoImplicit false

namespace MokyaLora.Ime
open Lib.Fields Lib.Memory Lib.Utf8 Lib.Schedule

def kTextCapacity : ℕ := 2048

/-- `g_text`, `g_text_len` and `g_cursor`. -/
structure TextBuffer where
  text : Buffer
  textLen : ℕ
  cursor : ℕ

inductive Edit where
  | commit (utf8 : Bytes)
  | cursorMove (d : NavDir)
  | deleteBefore
  | clearText

namespace TextBuffer

def init : TextBuffer := ⟨zeroed, 0, 0⟩

variable (s : TextBuffer)

def content : Bytes := segment s.text 0 s.textLen

def stepBack (b : Buffer) : ℕ → ℕ
  | 0 => 0
  | pos+1 => if continues (b (pos+1)) then stepBack b pos else pos+1

def prevBoundary (pos : ℕ) : ℕ := if pos = 0 then 0 else stepBack s.text (pos-1)

def stepForward (b : Buffer) : ℕ → ℕ → ℕ
  | 0, pos => pos
  | n+1, pos => if continues (b pos) then stepForward b n (pos+1) else pos

def nextBoundary (pos : ℕ) : ℕ :=
  if s.textLen ≤ pos then s.textLen else stepForward s.text (s.textLen-(pos+1)) (pos+1)

def extractCtx : Bytes :=
  if s.cursor = 0 then []
  else
    let start := (List.range 2).foldl
      (fun start _ => if 0 < start then s.prevBoundary start else start) s.cursor
    segment s.text start (min (s.cursor-start) 15)

/-- Whether there is room in the end. The cursor is set back while the byte at it
continues a character; at the end of the text that byte is one from before. -/
def makeRoomFor (need : ℕ) : TextBuffer × Bool :=
  if s.textLen+need ≤ kTextCapacity then (s, true)
  else
    let keep := kTextCapacity/2
    if keep < s.textLen then
      let drop := s.textLen-keep
      let text := move s.text 0 drop keep
      (⟨store text keep 0, keep, stepBack text (s.cursor-drop)⟩, decide (keep+need ≤ kTextCapacity))
    else (s, false)

def pushIn (str : Bytes) : TextBuffer where
  text := store (copyIn (move s.text (s.cursor+str.length) s.cursor (s.textLen-s.cursor))
    s.cursor str) (s.textLen+str.length) 0
  textLen := s.textLen+str.length
  cursor := s.cursor+str.length

def insertAtCursor (str : Bytes) : TextBuffer :=
  if str = [] then s
  else
    let (s, fits) := s.makeRoomFor str.length
    if fits then s.pushIn str
    else
      let n := kTextCapacity-s.textLen
      if n = 0 then s else s.pushIn (str.take n)

def deleteBeforeCursor : TextBuffer :=
  if s.cursor = 0 then s
  else
    let prev := s.prevBoundary s.cursor
    let drop := s.cursor-prev
    { text := store (move s.text prev s.cursor (s.textLen-s.cursor)) (s.textLen-drop) 0
      textLen := s.textLen-drop
      cursor := prev }

def onCommit (str : Bytes) : TextBuffer := if str = [] then s else s.insertAtCursor str

/-- The buffer, and the context that `set_text_context` is called with. -/
def onCursorMove (d : NavDir) : TextBuffer × Bytes :=
  let s := match d with
    | .left => { s with cursor := s.prevBoundary s.cursor }
    | .right => { s with cursor := s.nextBoundary s.cursor }
    | .up | .down => s
  (s, s.extractCtx)

def onDeleteBefore : TextBuffer × Bytes := (s.deleteBeforeCursor, s.deleteBeforeCursor.extractCtx)

def clearText : TextBuffer := ⟨store s.text 0 0, 0, 0⟩

def apply : Edit → TextBuffer
  | .commit str => s.onCommit str
  | .cursorMove d => (s.onCursorMove d).1
  | .deleteBefore => s.onDeleteBefore.1
  | .clearText => s.clearText

def step (s : TextBuffer) (e : Edit) : Option TextBuffer := some (s.apply e)

/-- The text is a string with an end, and the cursor stands on a boundary. -/
structure Ok : Prop where
  cursor : s.cursor ≤ s.textLen
  limit : s.textLen ≤ kTextCapacity
  nul : s.text s.textLen = 0
  wellFormed : WellFormed s.content
  boundary : Boundary s.content s.cursor

/-- A commit that needs more room than there is cuts the text, and the committed
string, at a boundary. -/
def CutsClean (str : Bytes) : Prop :=
  s.textLen+str.length ≤ kTextCapacity ∨
  (kTextCapacity/2 < s.textLen → continues (s.text (s.textLen-kTextCapacity/2)) = false) ∧
  Boundary str (kTextCapacity-min s.textLen (kTextCapacity/2))

def Whole : Edit → Prop
  | .commit str => s.CutsClean str
  | _ => True

end TextBuffer

end MokyaLora.Ime
