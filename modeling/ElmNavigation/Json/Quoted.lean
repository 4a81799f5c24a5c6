/-! String literals of JSON. A literal is kept as it is written between its quotes. `units?` reads
its characters and escapes, and fails where an escape is malformed; `decode?` then joins the two
halves of each character that is written as a pair of surrogates, and fails where a half stands
alone. `encode` writes a text as a literal: only the quote, the backslash and the control characters
need an escape. -/

namespace ElmNavigation.Json

/-- What one character or escape of a literal stands for. -/
inductive Unit16 where
  | whole (char : Char)
  /-- The first half of a character beyond the basic plane. -/
  | high (code : Nat)
  /-- The second half of such a character. -/
  | low (code : Nat)
  deriving DecidableEq, Repr

namespace Unit16

/-- The unit that an escape with four hexadecimal digits names. -/
def ofCode (code : Nat) : Unit16 :=
  if 0xD800 ≤ code ∧ code < 0xDC00 then high code
  else if 0xDC00 ≤ code ∧ code < 0xE000 then low code
  else whole (Char.ofNat code)

end Unit16

/-- The value of a hexadecimal digit in either case. -/
def hexDigit? (c : Char) : Option Nat :=
  if c.isDigit then some (c.toNat - '0'.toNat)
  else if 'a' ≤ c ∧ c ≤ 'f' then some (c.toNat - 'a'.toNat + 10)
  else if 'A' ≤ c ∧ c ≤ 'F' then some (c.toNat - 'A'.toNat + 10)
  else none

/-- The number that four hexadecimal digits write. -/
def hexCode? (a b c d : Char) : Option Nat :=
  match hexDigit? a, hexDigit? b, hexDigit? c, hexDigit? d with
  | some a, some b, some c, some d => some (((a * 16 + b) * 16 + c) * 16 + d)
  | _, _, _, _ => none

/-- The character that a backslash with one letter stands for. -/
def shortEscape? : Char → Option Char
  | '"' => some '"'
  | '\\' => some '\\'
  | '/' => some '/'
  | 'b' => some '\x08'
  | 'f' => some '\x0c'
  | 'n' => some '\n'
  | 'r' => some '\r'
  | 't' => some '\t'
  | _ => none

/-- The units of a literal; none if it holds a control character or a malformed escape. -/
def units? : List Char → Option (List Unit16)
  | [] => some []
  | '\\' :: 'u' :: a :: b :: c :: d :: rest =>
      match hexCode? a b c d, units? rest with
      | some code, some units => some (Unit16.ofCode code :: units)
      | _, _ => none
  | '\\' :: c :: rest =>
      match shortEscape? c, units? rest with
      | some char, some units => some (.whole char :: units)
      | _, _ => none
  | c :: rest => if c = '\\' ∨ c.toNat < 0x20 then none else (units? rest).map (.whole c :: ·)

/-- The text of a list of units, in which each first half is followed by a second one. -/
def joinHalves? : List Unit16 → Option (List Char)
  | [] => some []
  | .whole c :: rest => (joinHalves? rest).map (c :: ·)
  | .high high :: .low low :: rest =>
      (joinHalves? rest).map (Char.ofNat (0x10000 + (high - 0xD800) * 0x400 + (low - 0xDC00)) :: ·)
  | .high _ :: _ => none
  | .low _ :: _ => none

/-- The text that a literal stands for. -/
def decode? (literal : List Char) : Option String :=
  (units? literal).bind fun units => (joinHalves? units).map String.ofList

/-- The hexadecimal digits of a number below 256, in small letters. -/
def hexPair (code : Nat) : List Char :=
  [Nat.digitChar (code / 16), Nat.digitChar (code % 16)]

/-- One character as a literal writes it. -/
def encodeChar (c : Char) : List Char :=
  if c = '"' then ['\\', '"']
  else if c = '\\' then ['\\', '\\']
  else if c = '\x08' then ['\\', 'b']
  else if c = '\x0c' then ['\\', 'f']
  else if c = '\n' then ['\\', 'n']
  else if c = '\r' then ['\\', 'r']
  else if c = '\t' then ['\\', 't']
  else if c.toNat < 0x20 then '\\' :: 'u' :: '0' :: '0' :: hexPair c.toNat
  else [c]

/-- The literal of a text. -/
def encode (text : String) : List Char :=
  text.toList.flatMap encodeChar

end ElmNavigation.Json
