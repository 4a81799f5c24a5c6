import ElmNavigation.Text.Utf8

/-! Places in a text. A `Span` is a range of bytes; a `Position` names one point by line, column
and byte offset, all counted from zero, with columns in characters. A `LineIndex` converts between
offsets and positions: it holds the lines of one text with the offset at which each begins, and
finds the line of an offset by halving the table. -/

namespace ElmNavigation

/-- The bytes from `start` up to, and not with, `stop`. -/
structure Span where
  start : Nat
  stop : Nat
  deriving DecidableEq, Repr

/-- A point of a text. -/
structure Position where
  line : Nat
  /-- Characters since the start of the line. -/
  column : Nat
  /-- Bytes since the start of the text. -/
  offset : Nat
  deriving DecidableEq, Repr

/-- `line:column` as editors count, from one. -/
def Position.display (position : Position) : String :=
  toString (position.line + 1) ++ ":" ++ toString (position.column + 1)

namespace Text

/-- A line without its line break, and the offset at which it begins. -/
structure Line where
  start : Nat
  text : List Char
  deriving DecidableEq, Repr

/-- The text up to the next line break. -/
def firstLine (text : List Char) : List Char :=
  text.takeWhile (· ≠ '\n')

/-- The lines that begin after a line break of a text which itself begins at `offset`. -/
def laterLines (offset : Nat) : List Char → List Line
  | [] => []
  | c :: text =>
      if c = '\n' then ⟨offset + 1, firstLine text⟩ :: laterLines (offset + 1) text
      else laterLines (offset + c.utf8Size) text

/-- The lines of one text, and its length in bytes. -/
structure LineIndex where
  lines : Array Line
  size : Nat

namespace LineIndex

/-- Every text has a first line, and one more after each line break. -/
def ofText (text : List Char) : LineIndex where
  lines := (⟨0, firstLine text⟩ :: laterLines 0 text).toArray
  size := byteLength text

/-- The number of lines of `lines[low:high]` that begin at or before `offset`, added to `low`. The
first argument bounds the number of halvings. -/
def countUpTo (lines : Array Line) (offset : Nat) : Nat → Nat → Nat → Nat
  | 0, low, _ => low
  | steps + 1, low, high =>
      if low < high then
        let middle := (low + high) / 2
        if (lines.getD middle ⟨0, []⟩).start ≤ offset then countUpTo lines offset steps (middle + 1) high
        else countUpTo lines offset steps low middle
      else low

/-- The last line that begins at or before `offset`. -/
def lineAt (index : LineIndex) (offset : Nat) : Nat :=
  countUpTo index.lines offset index.lines.size 0 index.lines.size - 1

/-- The position of an offset. An offset past the end is taken for the end, and one inside a
character has the bytes since the start of its line for a column. -/
def position (index : LineIndex) (offset : Nat) : Position :=
  let offset := min offset index.size
  let number := index.lineAt offset
  let line := index.lines.getD number ⟨0, []⟩
  let bytes := offset - line.start
  ⟨number, (charsIn? bytes line.text).getD bytes, offset⟩

/-- The offset of a caret before the given column of a line, where the end of the line is a column
too. -/
def offset? (index : LineIndex) (line column : Nat) : Option Nat :=
  match index.lines[line]? with
  | none => none
  | some line =>
      if column ≤ line.text.length then some (line.start + byteLength (line.text.take column)) else none

end LineIndex

end Text

end ElmNavigation
