import BehaviorIndex.Toml.Statement

/-!
# Writing documents

Entries are written in order, each on its line: first those of the outermost table, then a section
for each table, with an empty line in front. A list of two items or more has one of them on each
line.
-/

namespace BehaviorIndex.Toml

open Data (Value Entries)

def quote (s : String) : String := String.ofList (writeText s.toList)

def writeKey (key : String) : String :=
  if !key.isEmpty && key.toList.all isBareKeyChar then key else quote key

mutual

/-- The way a value is written behind its key. -/
def writeValue : Value → String
  | .text s => quote s
  | .int n => toString n
  | .nat n => toString n
  | .float x => Text.pointedFloat x
  | .bool b => toString b
  | .list [] => "[]"
  | .list [v] => "[" ++ writeValue v ++ "]"
  | .list vs => "[\n" ++ writeItems vs ++ "]"
  | .table es => "\x7b" ++ writeInline es ++ "\x7d"

def writeItems : List Value → String
  | [] => ""
  | v :: vs => "    " ++ writeValue v ++ ",\n" ++ writeItems vs

def writeInline : List (String × Value) → String
  | [] => ""
  | [(key, v)] => " " ++ writeKey key ++ " = " ++ writeValue v ++ " "
  | (key, v) :: es => " " ++ writeKey key ++ " = " ++ writeValue v ++ "," ++ writeInline es

end

def writeEntry (key : String) (v : Value) : String := writeKey key ++ " = " ++ writeValue v ++ "\n"

def isTable : Value → Bool
  | .table _ => true
  | _ => false

/-- The entries of a table that are no tables themselves. -/
def writeEntries (es : Entries) : String :=
  String.join ((es.filter fun e => !isTable e.2).map fun (key, v) => writeEntry key v)

def writeSection (key : String) : Value → String
  | .table es => "[" ++ writeKey key ++ "]\n" ++ writeEntries es
  | _ => ""

mutual

/-- Integers are written only up to 63 bits. -/
def isWritable : Value → Bool
  | .nat n => n < Nat.pow 2 63
  | .int n => -Int.pow 2 63 ≤ n && n < Int.pow 2 63
  | .list vs => allWritable vs
  | .table es => entriesWritable es
  | _ => true

def allWritable : List Value → Bool
  | [] => true
  | v :: vs => isWritable v && allWritable vs

def entriesWritable : List (String × Value) → Bool
  | [] => true
  | (_, v) :: es => isWritable v && entriesWritable es

end

/-- A document with sections of one level. -/
def render (es : Entries) : String :=
  let top := writeEntries es
  let sections := (es.filter fun e => isTable e.2).map fun (key, v) => writeSection key v
  "\n".intercalate (if top.isEmpty then sections else top :: sections)

end BehaviorIndex.Toml
