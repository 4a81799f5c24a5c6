/-! The characters of words. -/

namespace ElmNavigation.Text

/-- Whether a character belongs to a word: an ASCII letter, a digit or an underscore. -/
def isWordChar (c : Char) : Bool :=
  c.isAlphanum || c == '_'

end ElmNavigation.Text
