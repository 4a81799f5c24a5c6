import ElmNavigation.Text.LineIndex
import ElmNavigation.Text.Word

/-! The word under a caret. A word is a maximal run of ASCII letters, digits and underscores; a caret
that stands before a character of such a run, first or not, is on the word. -/

namespace ElmNavigation.Text

/-- A text cut after the characters that lie wholly in its first `n` bytes. -/
def splitAtByte (n : Nat) (text : List Char) : List Char × List Char :=
  text.splitAt (charsWithin n text)

/-- The word around a byte offset, if the character there belongs to one. -/
def wordAtOffset? (text : List Char) (offset : Nat) : Option (List Char) :=
  let (before, after) := splitAtByte offset text
  match after with
  | [] => none
  | c :: _ =>
      if isWordChar c then some ((before.reverse.takeWhile isWordChar).reverse ++ after.takeWhile isWordChar)
      else none

/-- The word under a caret given by line and column. -/
def wordAt? (source : String) (line column : Nat) : Option String :=
  match (LineIndex.ofText source.toList).offset? line column with
  | some offset => (wordAtOffset? source.toList offset).map String.ofList
  | none => none

end ElmNavigation.Text
