import ElmNavigation.Project.Definition

/-! The command line. `Arguments.collect` sorts the words after a command into plain words, flags and
options with a value; `Request.parse` then makes a request of them. Options may stand before or after
plain words, `--` makes plain words of all that follow, and nothing but `-v` may be given twice. Words
are judged one after the other, so a request for help is granted unless a word before it is wrong. -/

namespace ElmNavigation.CommandLine

inductive Command where
  | parse (file : Path) (json : Bool)
  | check (file : Path)
  | index (root : Path) (json : Bool)
  | definition (file : Path) (query : Query) (root : Option Path)
  deriving DecidableEq, Repr

/-- What a command line asks for. -/
inductive Request where
  | run (verbosity : Nat) (command : Command)
  | help
  | version
  /-- The arguments make no sense. -/
  | refused
  deriving DecidableEq, Repr

/-- A word of the command line by its form. -/
inductive Word where
  | plain (text : String)
  | letters (letters : List Char)
  | option (name : String) (value : Option String)
  | escape
  deriving DecidableEq, Repr

/-- The form of a word. A single hyphen is a plain word. -/
def Word.ofText (text : String) : Word :=
  match text.toList with
  | ['-', '-'] => escape
  | '-' :: '-' :: name =>
      match name.dropWhile (· ≠ '=') with
      | _ :: value => option (String.ofList (name.takeWhile (· ≠ '='))) (some (String.ofList value))
      | [] => option (String.ofList name) none
  | '-' :: c :: rest => letters (c :: rest)
  | _ => plain text

/-- A path, which may not be empty. -/
def path? (text : String) : Option Path :=
  if text.isEmpty then none else some ⟨text⟩

/-- The least number that is too large. -/
def numberBound : Nat := 18446744073709551616

/-- A number in decimal digits, with or without a plus sign. -/
def number? (text : String) : Option Nat :=
  let digits := match text.toList with
    | '+' :: digits => digits
    | digits => digits
  if digits.isEmpty || !digits.all Char.isDigit then none
  else
    let value := digits.foldl (fun value c => value * 10 + (c.toNat - '0'.toNat)) 0
    if value < numberBound then some value else none

/-- What a plain word or the value of an option stands for. -/
inductive ValueKind where
  | path
  | text
  | number
  deriving DecidableEq, Repr

/-- Whether a word can be read as a value of the kind. -/
def ValueKind.accepts : ValueKind → String → Bool
  | path, word => (path? word).isSome
  | text, _ => true
  | number, word => (number? word).isSome

/-- What may follow a command. -/
structure Signature where
  /-- The plain words, at most so many. -/
  words : List ValueKind
  /-- The options without a value. -/
  flags : List String
  /-- The options with a value. -/
  valued : List (String × ValueKind)
  deriving DecidableEq, Repr

/-- The words after a command, sorted. -/
structure Arguments where
  plain : List String
  flags : List String
  values : List (String × String)
  verbosity : Nat
  deriving DecidableEq, Repr

namespace Arguments

def empty : Arguments :=
  ⟨[], [], [], 0⟩

def has (arguments : Arguments) (flag : String) : Bool :=
  arguments.flags.contains flag

def value? (arguments : Arguments) (name : String) : Option String :=
  arguments.values.lookup name

def addVerbosity (arguments : Arguments) (count : Nat) : Arguments :=
  { arguments with verbosity := arguments.verbosity + count }

/-- The arguments with a further plain word, if there is room for it and it can be read. -/
def addPlain? (signature : Signature) (arguments : Arguments) (word : String) : Option Arguments :=
  if (signature.words[arguments.plain.length]?).any (·.accepts word) then
    some { arguments with plain := arguments.plain ++ [word] }
  else none

/-- The arguments with further plain words. -/
def addPlains? (signature : Signature) (arguments : Arguments) (words : List String) : Option Arguments :=
  words.foldlM (addPlain? signature) arguments

/-- The arguments with a further flag, if it is known and new. -/
def addFlag? (signature : Signature) (arguments : Arguments) (name : String) : Option Arguments :=
  if signature.flags.contains name && !arguments.has name then
    some { arguments with flags := name :: arguments.flags }
  else none

/-- The arguments with a further option, if it is known and new and its value can be read. -/
def addValue? (signature : Signature) (arguments : Arguments) (name value : String) : Option Arguments :=
  if (signature.valued.lookup name).any (·.accepts value) && (arguments.value? name).isNone then
    some { arguments with values := (name, value) :: arguments.values }
  else none

/-- How verbose a run of letters asks to be, or the request that it makes instead. `known` are the
letters with a request of their own. -/
def lettersVerbosity (known : List (Char × Request)) : List Char → Except Request Nat
  | [] => .ok 0
  | c :: rest =>
      if c = 'v' then (lettersVerbosity known rest).map (· + 1)
      else .error ((known.lookup c).getD .refused)

/-- Sorts the words that follow those already `seen`. A request that is not to run a command ends the
work at once. -/
def collect (signature : Signature) (seen : Arguments) : List String → Except Request Arguments
  | [] => .ok seen
  | word :: rest =>
      match Word.ofText word with
      | .escape =>
          match addPlains? signature seen rest with
          | some seen => .ok seen
          | none => .error .refused
      | .plain text =>
          match addPlain? signature seen text with
          | some seen => collect signature seen rest
          | none => .error .refused
      | .letters letters =>
          match lettersVerbosity [('h', .help)] letters with
          | .error request => .error request
          | .ok count => collect signature (seen.addVerbosity count) rest
      | .option name (some value) =>
          match addValue? signature seen name value with
          | some seen => collect signature seen rest
          | none => .error .refused
      | .option name none =>
          if name = "verbose" then collect signature (seen.addVerbosity 1) rest
          else if name = "help" then .error .help
          else
            match addFlag? signature seen name, rest with
            | some seen, rest => collect signature seen rest
            | none, value :: rest =>
                match Word.ofText value with
                | .plain value =>
                    match addValue? signature seen name value with
                    | some seen => collect signature seen rest
                    | none => .error .refused
                | _ => .error .refused
            | none, [] => .error .refused

end Arguments

/-- An optional value that has to be readable if it is given. -/
def optionally {α : Type} (read : String → Option α) : Option String → Option (Option α)
  | none => some none
  | some text => (read text).map some

namespace Command

/-- What may follow the command with a given name. -/
def signature? : String → Option Signature
  | "parse" => some ⟨[.path], ["json"], []⟩
  | "check" => some ⟨[.path], [], []⟩
  | "index" => some ⟨[.path], ["json"], []⟩
  | "definition" => some ⟨[.path, .text], [], [("line", .number), ("column", .number), ("root", .path)]⟩
  | _ => none

/-- The query of a definition command: a name, or a line and a column, which are counted from one. -/
def query? (symbol : Option String) (line column : Option Nat) : Option Query :=
  match symbol, line, column with
  | some name, none, none => some (.symbol name)
  | none, some line, some column => some (.caret (line - 1) (column - 1))
  | _, _, _ => none

/-- The command with the given name and arguments, if they fit. -/
def ofArguments? (name : String) (arguments : Arguments) : Option Command :=
  match name, arguments.plain with
  | "parse", [file] => (path? file).map (.parse · (arguments.has "json"))
  | "check", [file] => (path? file).map .check
  | "index", [] => some (.index ⟨"."⟩ (arguments.has "json"))
  | "index", [root] => (path? root).map (.index · (arguments.has "json"))
  | "definition", file :: symbol => do
      let file ← path? file
      let line ← optionally number? (arguments.value? "line")
      let column ← optionally number? (arguments.value? "column")
      let root ← optionally path? (arguments.value? "root")
      let query ← query? symbol.head? line column
      return .definition file query root
  | _, _ => none

end Command

namespace Request

/-- The request of a command with its arguments. -/
def ofCommand (verbosity : Nat) (name : String) (signature : Signature) (rest : List String) : Request :=
  match Arguments.collect signature .empty rest with
  | .error request => request
  | .ok arguments =>
      match Command.ofArguments? name arguments with
      | some command => run (verbosity + arguments.verbosity) command
      | none => refused

/-- The request for help, about the program or one of its commands. -/
def ofHelp : List String → Request
  | [] => help
  | [name] => if name = "help" ∨ (Command.signature? name).isSome then help else refused
  | _ => refused

/-- The request of a command line, where `verbosity` was asked for by the words before. -/
def parseFrom (verbosity : Nat) : List String → Request
  | [] => refused
  | word :: rest =>
      match Word.ofText word with
      | .plain name =>
          match Command.signature? name with
          | some signature => ofCommand verbosity name signature rest
          | none => if name = "help" then ofHelp rest else refused
      | .letters letters =>
          match Arguments.lettersVerbosity [('h', help), ('V', version)] letters with
          | .error request => request
          | .ok count => parseFrom (verbosity + count) rest
      | .option "verbose" none => parseFrom (verbosity + 1) rest
      | .option "help" none => help
      | .option "version" none => version
      | _ => refused

/-- The request of a command line. -/
def parse (words : List String) : Request :=
  parseFrom 0 words

end Request

end ElmNavigation.CommandLine
