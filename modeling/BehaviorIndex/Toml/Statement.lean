import BehaviorIndex.Data.Value
import BehaviorIndex.Toml.Date
import BehaviorIndex.Toml.Number
import BehaviorIndex.Toml.Text

/-!
# Statements

A document is a sequence of *statements*: an entry gives a key a value, and a header opens a table,
or the next table of a list. Keys are dotted: `a.b` is the key `b` in the table `a`. Lists may run
over several lines and hold comments; tables in braces stay on one line.
-/

namespace BehaviorIndex.Toml

open Data (Value)

/-- How deep lists and tables in braces may be nested. -/
def maxNesting : Nat := 79

/-- How many parts a dotted key may have. -/
def maxKeyParts : Nat := 79

/-! ## Blanks and comments -/

def skipSpaces (cs : List Char) : List Char := cs.dropWhile isSpace

/-- What follows a line end. -/
def afterLineEnd? : List Char → Option (List Char)
  | '\n' :: cs => some cs
  | '\r' :: '\n' :: cs => some cs
  | _ => none

/-- What follows a comment, if there is one; its line end is left. -/
def skipComment : List Char → List Char
  | '#' :: cs => cs.dropWhile isShown
  | cs => cs

/-- What follows a line that has nothing more to say. -/
def afterLine? (cs : List Char) : Option (List Char) :=
  match skipComment (skipSpaces cs) with
  | [] => some []
  | cs => afterLineEnd? cs

/-- Skips spaces, line ends and comments. -/
def skipBlanks : (comment : Bool) → List Char → List Char
  | _, [] => []
  | comment, c :: cs =>
    match c, cs with
    | '\n', cs => skipBlanks false cs
    | '\r', '\n' :: cs => skipBlanks false cs
    | c, cs =>
      if comment then if isShown c then skipBlanks true cs else c :: cs
      else if c = '#' then skipBlanks true cs
      else if isSpace c then skipBlanks false cs
      else c :: cs

/-! ## Keys -/

def isBareKeyChar (c : Char) : Bool := c.isAlphanum || c == '_' || c == '-'

/-- A part of a key: quoted on one line, or bare. -/
def readKeyPart? : List Char → Option (String × List Char)
  | '"' :: cs => (readBasic? cs).map fun (key, rest) => (String.ofList key, rest)
  | '\'' :: cs => (readLiteral? cs).map fun (key, rest) => (String.ofList key, rest)
  | cs =>
    match cs.takeWhile isBareKeyChar with
    | [] => none
    | key => some (String.ofList key, cs.dropWhile isBareKeyChar)

/-- A dotted key of at most so many parts, with the spaces around them. -/
def readKey? : (parts : Nat) → List Char → Option (List String × List Char)
  | 0, _ => none
  | parts + 1, cs => do
    let (part, rest) ← readKeyPart? (skipSpaces cs)
    match skipSpaces rest with
    | '.' :: rest =>
      let (more, rest) ← readKey? parts rest
      return (part :: more, rest)
    | rest => return ([part], rest)

/-! ## Values -/

def readNumber? (cs : List Char) : Option (Value × List Char) :=
  match afterDateTime? cs with
  | some rest => some (.table [], rest)
  | none =>
    match readFloat? cs with
    | some (x, rest) => some (.float x, rest)
    | none => (readInt? cs).map fun (n, rest) => (.int n, rest)

/-- A value other than a list or a table. Dates count as tables of their own, without entries. -/
def readScalar? (cs : List Char) : Option (Value × List Char) :=
  match cs with
  | '"' :: _ | '\'' :: _ =>
    (readText? cs).map fun (text, rest) => (.text (String.ofList text), rest)
  | 't' :: 'r' :: 'u' :: 'e' :: rest => some (.bool true, rest)
  | 'f' :: 'a' :: 'l' :: 's' :: 'e' :: rest => some (.bool false, rest)
  | _ => readNumber? cs

/-- The items of a list up to its closing bracket. Every round reads an item, so `rounds` need not
exceed the number of characters. -/
def readItems? (item : List Char → Option (Value × List Char)) :
    (rounds : Nat) → List Char → Option (List Value × List Char)
  | 0, _ => none
  | rounds + 1, cs =>
    match skipBlanks false cs with
    | ']' :: rest => some ([], rest)
    | cs => do
      let (v, rest) ← item cs
      match skipBlanks false rest with
      | ']' :: rest => return ([v], rest)
      | ',' :: rest =>
        let (vs, rest) ← readItems? item rounds rest
        return (v :: vs, rest)
      | _ => none

/-- An entry: a key, an equals sign and a value. -/
def readEntry? (item : List Char → Option (Value × List Char)) (cs : List Char) :
    Option ((List String × Value) × List Char) := do
  let (key, rest) ← readKey? maxKeyParts cs
  match rest with
  | '=' :: rest =>
    let (v, rest) ← item (skipSpaces rest)
    return ((key, v), rest)
  | _ => none

/-- The entries of a table in braces up to its closing brace, at least one. -/
def readEntries? (item : List Char → Option (Value × List Char)) :
    (rounds : Nat) → List Char → Option (List (List String × Value) × List Char)
  | 0, _ => none
  | rounds + 1, cs => do
    let (e, rest) ← readEntry? item cs
    match skipSpaces rest with
    | '\x7d' :: rest => return ([e], rest)
    | ',' :: rest =>
      let (es, rest) ← readEntries? item rounds rest
      return (e :: es, rest)
    | _ => none

end BehaviorIndex.Toml
