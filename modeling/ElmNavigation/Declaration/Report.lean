import ElmNavigation.Declaration.Parser
import ElmNavigation.Text.Width

/-! Diagnostics as they are shown to a reader: a title, and a mark at a line and column of the source
with the message as its label. The lines of a report end at more characters than those of a position
do, and a line break at the very end of the text begins no further line. The label of a mark on one
line hangs from the column of a character in the middle of what is marked; from a character that has
no column it cannot hang. -/

namespace ElmNavigation

/-- Where a report points, counted from zero, and what it says there, if there is room for a label. -/
structure Mark where
  line : Nat
  column : Nat
  label : Option String
  deriving DecidableEq, Repr

structure Report where
  title : String
  /-- No mark if the place is not in the text. -/
  mark : Option Mark
  deriving DecidableEq, Repr

/-- `line:column`, counted from one. -/
def Mark.location (mark : Mark) : String :=
  toString (mark.line + 1) ++ ":" ++ toString (mark.column + 1)

namespace Report

/-- The characters that end a line of a report. -/
def isLineBreak (c : Char) : Bool :=
  c == '\n' || c == '\r' || c == '\x0b' || c == '\x0c' || c == '\u0085' || c == '\u2028' || c == '\u2029'

/-- Whether a line begins after the character `c`: it ends one, is not the first half of a carriage
return with a line feed, and more text follows. -/
def beginsLine (c : Char) (rest : List Char) : Bool :=
  isLineBreak c && !rest.isEmpty && !(c == '\r' && rest.head? == some '\n')

/-- The line and column reached after `n` characters from a given line and column; none if the text
has fewer. -/
def walk : Nat → Nat → Nat → List Char → Option (Nat × Nat)
  | line, column, 0, _ => some (line, column)
  | _, _, _ + 1, [] => none
  | line, column, n + 1, c :: rest =>
      if beginsLine c rest then walk (line + 1) 0 n rest else walk line (column + 1) n rest

/-- The line and column of the `n`-th character. An empty text has no line. -/
def place? (text : List Char) (n : Nat) : Option (Nat × Nat) :=
  if text.isEmpty then none else walk 0 0 n text

/-- The number of characters before a byte offset, which is taken for the end if it lies past it, and
for a number of characters if it lies inside one. -/
def charOffset (text : List Char) (offset : Nat) : Nat :=
  let offset := min offset (Text.byteLength text)
  (Text.charsIn? offset text).getD offset

/-- Whether a label can hang from the `n`-th character. Past the end of the text it can. -/
def carriesLabel (text : List Char) (n : Nat) : Bool :=
  !(text[n]?).any Text.isWidthless

/-- Whether the mark on the characters from `first` to before `stop` has a label. What is marked has to
end in the text. On several lines the label stands in the margin, on one line it hangs from the middle. -/
def isLabelled (text : List Char) (first stop : Nat) (onOneLine : Bool) : Bool :=
  stop ≤ text.length && (!onOneLine || carriesLabel text ((first + stop) / 2))

/-- The mark with a message on the characters from `first` to before `stop`. The first and the last of
them have to lie in the text or right after it. -/
def markAt? (text : List Char) (first stop : Nat) (message : String) : Option Mark :=
  match place? text first, place? text (max first (stop - 1)) with
  | some (line, column), some (lastLine, _) =>
      some ⟨line, column, if isLabelled text first stop (line == lastLine) then some message else none⟩
  | _, _ => none

/-- The mark of a diagnostic. What it marks does not end before it starts. -/
def mark? (text : List Char) (diagnostic : Diagnostic) : Option Mark :=
  let first := charOffset text diagnostic.span.start
  let stop := charOffset text diagnostic.span.stop
  markAt? text first (max first stop) diagnostic.message

/-- The report of a diagnostic in the source of a file. -/
def ofDiagnostic (source filename : String) (diagnostic : Diagnostic) : Report where
  title := "unrecognized declaration in " ++ filename
  mark := mark? source.toList diagnostic

end Report

end ElmNavigation
