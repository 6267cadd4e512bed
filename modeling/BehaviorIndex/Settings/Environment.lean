import BehaviorIndex.Data.Value
import BehaviorIndex.Text.Blank
import BehaviorIndex.Toml.Number
import BehaviorIndex.Toml.Text

/-!
# Settings from the environment

A variable whose name starts with `TS_`, in any case, gives a setting a value. The rest of the name
is taken in lower case, and two underscores in it separate nested keys. The value is read as a truth
value, a number, a quoted text, a list in brackets or a table in braces. A value that is none of
these is a text.
-/

namespace BehaviorIndex.Settings

open Data (Value Entries)

/-! ## Names -/

/-- A name with dots for pairs of underscores. -/
def dotPairs : List Char → List Char
  | '_' :: '_' :: cs => '.' :: dotPairs cs
  | c :: cs => c :: dotPairs cs
  | [] => []

/-- The parts between dots. -/
def splitDots (cs : List Char) : List (List Char) :=
  match cs with
  | [] => [[]]
  | c :: cs =>
    if c == '.' then [] :: splitDots cs
    else
      match splitDots cs with
      | part :: parts => (c :: part) :: parts
      | [] => [[c]]

/-- A character in lower case. The kelvin sign is the only one outside ASCII with a lower case in
ASCII, where all settings have their names. -/
def lowerCase (c : Char) : Char := if c == '\u212A' then 'k' else c.toLower

/-- The nested keys that a variable names, if it names a setting. No key is empty. -/
def keysOf? (name : String) : Option (List String) :=
  let name := (Text.trim name.toList).map lowerCase
  if ['t', 's', '_'].isPrefixOf name then
    let parts := splitDots (dotPairs (name.drop 3))
    if parts.all (!·.isEmpty) then some (parts.map String.ofList) else none
  else none

/-! ## Values -/

def isAsciiBlank (c : Char) : Bool :=
  c == ' ' || c == '\t' || c == '\n' || c == '\x0c' || c == '\r'

def skipAsciiBlanks (cs : List Char) : List Char := cs.dropWhile isAsciiBlank

/-- A character that brackets, braces and commas do not end. -/
def isPlain (c : Char) : Bool := c != ',' && c != '\x7b' && c != '\x7d' && c != '[' && c != ']'

/-- A float in base ten with a point in it: digits on at least one side, perhaps an exponent. -/
def pointed? (cs : List Char) : Option Float := do
  let (negative, cs) := Toml.readSign cs
  let (whole, rest) := (cs.takeWhile Char.isDigit, cs.dropWhile Char.isDigit)
  let rest ← match rest with
    | '.' :: rest => some rest
    | _ => none
  let (fraction, rest) := (rest.takeWhile Char.isDigit, rest.dropWhile Char.isDigit)
  let n ← Text.natOf? 10 (whole ++ fraction)
  let e : Int ← match rest with
    | [] => some 0
    | c :: rest =>
      if c == 'e' || c == 'E' then
        let (negative, digits) := Toml.readSign rest
        (Text.natOf? 10 digits).map fun n => if negative then -(n : Int) else n
      else none
  let x := Toml.floatOf n (e - fraction.length)
  return if negative then -x else x

/-- A number, or the text itself. -/
def plainValue (cs : List Char) : Value :=
  let negative? := match cs with
    | '-' :: digits =>
      (Text.natOf? 10 digits).bind fun n => if n ≤ Nat.pow 2 63 then some (-(n : Int)) else none
    | _ => none
  match pointed? cs, Text.boundedOf? 10 UInt64.size cs, negative? with
  | some x, _, _ => .float x
  | none, some n, _ => .nat n
  | none, none, some n => .int n
  | none, none, none => .text (String.ofList cs)

/-- A text between quotation marks, with escapes. -/
def quoted? (cs : List Char) : Option (String × List Char) :=
  (Toml.readBasic? cs).map fun (text, rest) => (String.ofList text, rest)

def isKeyChar (c : Char) : Bool := c.isAlphanum || c == '_' || c == '-'

def readKey? (cs : List Char) : Option (String × List Char) :=
  match cs with
  | '"' :: cs => quoted? cs
  | cs =>
    match cs.takeWhile isKeyChar with
    | [] => none
    | key => some (String.ofList key, cs.dropWhile isKeyChar)

/-- The items between an opening and a closing mark, with commas between them, perhaps one behind
the last. Every round reads an item, so `rounds` need not exceed the number of characters. -/
def collect? (item : List Char → Option (α × List Char)) (closing : Char) :
    (rounds : Nat) → List Char → Option (List α × List Char)
  | 0, _ => none
  | rounds + 1, cs =>
    if cs.head? == some closing then some ([], cs.tail)
    else do
      let (a, rest) ← item cs
      match rest with
      | ',' :: rest =>
        let (as, rest) ← collect? item closing rounds rest
        return (a :: as, rest)
      | c :: rest => if c == closing then some ([a], rest) else none
      | [] => none

/-- An entry of a table in braces. -/
def readPair? (value : List Char → Option (Value × List Char)) (cs : List Char) :
    Option ((String × Value) × List Char) := do
  let (key, rest) ← readKey? (skipAsciiBlanks cs)
  match skipAsciiBlanks rest with
  | '=' :: rest =>
    let (v, rest) ← value rest
    return ((key, v), rest)
  | _ => none

/-- Reads a value, with at most `depth` lists and tables in one another. -/
def readValue? (depth : Nat) (cs : List Char) : Option (Value × List Char) := do
  let cs := skipAsciiBlanks cs
  let (v, rest) ← match depth, cs with
    | _, 't' :: 'r' :: 'u' :: 'e' :: rest => some (Value.bool true, rest)
    | _, 'f' :: 'a' :: 'l' :: 's' :: 'e' :: rest => some (.bool false, rest)
    | 0, '[' :: _ => none
    | 0, '\x7b' :: _ => none
    | depth + 1, '[' :: rest => do
      let (vs, rest) ← collect? (readValue? depth) ']' (rest.length + 1) rest
      return (.list vs, rest)
    | depth + 1, '\x7b' :: rest => do
      let (es, rest) ← collect? (readPair? (readValue? depth)) '\x7d' (rest.length + 1) rest
      return (.table (es.foldl (fun es (key, v) => Entries.set es key v) []), rest)
    | _, '"' :: rest => (quoted? rest).map fun (text, rest) => (.text text, rest)
    | _, '\'' :: c :: '\'' :: rest => some (.text (String.singleton c), rest)
    | _, '\'' :: _ => none
    | _, cs => some (plainValue (Text.trim (cs.takeWhile isPlain)), cs.dropWhile isPlain)
  return (v, skipAsciiBlanks rest)

/-- The value that a variable stands for. -/
def valueOf (text : String) : Value :=
  let cs := Text.trim text.toList
  match readValue? cs.length cs with
  | some (v, []) => v
  | _ => .text (String.ofList cs)

/-- The variables of an environment, with their values. -/
abbrev Variables := List (String × String)

/-- The settings that variables give, later ones on top of earlier ones. -/
def environmentEntries (vars : Variables) : Entries :=
  vars.foldl (fun es (name, text) =>
    match keysOf? name with
    | none => es
    | some keys =>
      match Data.nest keys (valueOf text) with
      | .table inner => Data.mergeEntries es inner
      | _ => es) []

end BehaviorIndex.Settings
