import BehaviorIndex.Text.Shortest

/-!
# JSON

Values of the JSON format, and the way they are printed: two spaces of indent for each level, one
member or element a line, and empty objects and arrays closed at once. Members keep their order.
-/

namespace BehaviorIndex.Report

inductive Json where
  | null
  | bool (b : Bool)
  | int (n : Int)
  | float (x : Float)
  | str (s : String)
  | arr (items : List Json)
  | obj (members : List (String × Json))
  deriving Inhabited

namespace Json

def ofNat (n : Nat) : Json := int n

def strings (ss : List String) : Json := arr (ss.map str)

/-! ## Strings -/

/-- Two lower-case hexadecimal digits. -/
def hexByte (n : Nat) : List Char := [Nat.digitChar (n / 16 % 16), Nat.digitChar (n % 16)]

/-- A character of a string: quotes, backslashes and control characters are escaped. -/
def escapeChar (c : Char) : List Char :=
  if c = '"' then ['\\', '"']
  else if c = '\\' then ['\\', '\\']
  else if c = '\n' then ['\\', 'n']
  else if c = '\r' then ['\\', 'r']
  else if c = '\t' then ['\\', 't']
  else if c = '\x08' then ['\\', 'b']
  else if c = '\x0c' then ['\\', 'f']
  else if c.toNat < 0x20 then ['\\', 'u', '0', '0'] ++ hexByte c.toNat
  else [c]

def quote (s : String) : String :=
  String.ofList ('"' :: s.toList.flatMap escapeChar ++ ['"'])

/-! ## Printing -/

def newline (depth : Nat) : String := "\n".pushn ' ' (2 * depth)

mutual

/-- A value that begins on a line of level `depth`. -/
def pretty (depth : Nat) : Json → String
  | null => "null"
  | bool b => if b then "true" else "false"
  | int n => toString n
  | float x => Text.pointedFloat x
  | str s => quote s
  | arr [] => "[]"
  | arr (x :: xs) =>
    "[" ++ newline (depth + 1) ++ pretty (depth + 1) x ++ prettyItems (depth + 1) xs ++
      newline depth ++ "]"
  | obj [] => "\x7b\x7d"
  | obj ((k, x) :: kvs) =>
    "\x7b" ++ newline (depth + 1) ++ quote k ++ ": " ++ pretty (depth + 1) x ++
      prettyMembers (depth + 1) kvs ++ newline depth ++ "\x7d"

/-- Further elements of an array. -/
def prettyItems (depth : Nat) : List Json → String
  | [] => ""
  | x :: xs => "," ++ newline depth ++ pretty depth x ++ prettyItems depth xs

/-- Further members of an object. -/
def prettyMembers (depth : Nat) : List (String × Json) → String
  | [] => ""
  | (k, x) :: kvs =>
    "," ++ newline depth ++ quote k ++ ": " ++ pretty depth x ++ prettyMembers depth kvs

end

def render (j : Json) : String := j.pretty 0

end Json

end BehaviorIndex.Report
