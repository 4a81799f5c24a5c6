/-! Text measured in bytes. A text is a list of characters, while the offsets that the program
reports count the bytes of its UTF-8 form. `byteLength` is the distance between the two measures,
`octets` the form itself, and `charsIn?` and `charsWithin` lead from bytes back to characters. -/

namespace ElmNavigation.Text

/-- The number of bytes that a text takes in UTF-8. -/
def byteLength (text : List Char) : Nat :=
  text.foldr (fun c length => c.utf8Size + length) 0

@[simp]
theorem byteLength_nil : byteLength [] = 0 := rfl

@[simp]
theorem byteLength_cons (c : Char) (text : List Char) :
    byteLength (c :: text) = c.utf8Size + byteLength text := rfl

@[simp]
theorem byteLength_append (left right : List Char) :
    byteLength (left ++ right) = byteLength left + byteLength right := by
  induction left with
  | nil => simp
  | cons c left ih => rw [List.cons_append, byteLength_cons, byteLength_cons, ih, Nat.add_assoc]

/-- The UTF-8 form of a text. -/
def octets (text : List Char) : List UInt8 :=
  text.flatMap String.utf8EncodeChar

@[simp]
theorem octets_append (left right : List Char) : octets (left ++ right) = octets left ++ octets right := by
  simp [octets]

theorem length_octets (text : List Char) : (octets text).length = byteLength text := by
  induction text with
  | nil => rfl
  | cons c text ih =>
      have hcons : octets (c :: text) = String.utf8EncodeChar c ++ octets text := rfl
      rw [hcons, List.length_append, ih, String.length_utf8EncodeChar, byteLength_cons]

/-- The number of characters in the first `n` bytes, if these bytes end between two characters
and the text has that many. -/
def charsIn? : Nat → List Char → Option Nat
  | 0, _ => some 0
  | _ + 1, [] => none
  | n + 1, c :: text =>
      if c.utf8Size ≤ n + 1 then (charsIn? (n + 1 - c.utf8Size) text).map (· + 1) else none

/-- The number of characters that lie wholly in the first `n` bytes. -/
def charsWithin : Nat → List Char → Nat
  | _, [] => 0
  | n, c :: text => if c.utf8Size ≤ n then charsWithin (n - c.utf8Size) text + 1 else 0

end ElmNavigation.Text
