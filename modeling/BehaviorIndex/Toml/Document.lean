import BehaviorIndex.Toml.Statement
import BehaviorIndex.Toml.Tree

/-!
# Documents

`parse?` reads a document, statement by statement, into the entries of its outermost table.
-/

namespace BehaviorIndex.Toml

open Data (Value Entries)

/-- A value, with at most so many lists and tables in one another. -/
def readValue? (depth : Nat) (cs : List Char) : Option (Value × List Char) :=
  match depth, cs with
  | 0, '[' :: _ => none
  | 0, '\x7b' :: _ => none
  | depth + 1, '[' :: rest => do
    let (vs, rest) ← readItems? (readValue? depth) rest.length rest
    return (.list vs, rest)
  | depth + 1, '\x7b' :: rest =>
    match skipSpaces rest with
    | '\x7d' :: rest => some (.table [], rest)
    | rest => do
      let (es, rest) ← readEntries? (readValue? depth) rest.length rest
      return (← tableOf? es, rest)
  | _, cs => readScalar? cs

inductive Statement where
  | entry (key : List String) (v : Value)
  /-- The header of a table. -/
  | table (key : List String)
  /-- The header of the next table of a list. -/
  | next (key : List String)

/-- The statement at the start of a line. -/
def readStatement? (cs : List Char) : Option (Statement × List Char) :=
  match cs with
  | '[' :: '[' :: rest => do
    let (key, rest) ← readKey? maxKeyParts rest
    match rest with
    | ']' :: ']' :: rest => return (.next key, rest)
    | _ => none
  | '[' :: rest => do
    let (key, rest) ← readKey? maxKeyParts rest
    match rest with
    | ']' :: rest => return (.table key, rest)
    | _ => none
  | cs => do
    let ((key, v), rest) ← readEntry? (readValue? maxNesting) cs
    return (.entry key v, rest)

def startsBlank (cs : List Char) : Bool :=
  match cs with
  | [] => true
  | c :: _ => c == '#' || c == '\n' || c == '\r'

/-- The statements of a document. Every round reads a line, so `rounds` need not exceed the number
of characters. -/
def readStatements? : (rounds : Nat) → List Char → Option (List Statement)
  | _, [] => some []
  | 0, _ :: _ => none
  | rounds + 1, cs =>
    let line := skipSpaces cs
    if startsBlank line then (afterLine? line).bind (readStatements? rounds)
    else do
      let (s, rest) ← readStatement? line
      let rest ← afterLine? rest
      return s :: (← readStatements? rounds rest)

/-- The tree of a document that is being read, and the table to which entries go. -/
structure Draft where
  items : Items := []
  current : List String := []

def Draft.add? (d : Draft) : Statement → Option Draft
  | .entry key v => do
    let last ← key.getLast?
    let insert := Items.insert? key.dropLast last v
    return { d with items := ← Items.update false insert d.current .defined d.items }
  | .table key => do
    let last ← key.getLast?
    return { items := ← Items.define? key.dropLast last d.items, current := key }
  | .next key => do
    let last ← key.getLast?
    return { items := ← Items.append? key.dropLast last d.items, current := key }

def dropMark : List Char → List Char
  | '\uFEFF' :: cs => cs
  | cs => cs

/-- The entries of a document; `none` if it is not well written. -/
def parse? (text : String) : Option Entries := do
  let cs := dropMark text.toList
  let statements ← readStatements? cs.length cs
  let draft ← statements.foldlM Draft.add? {}
  return entriesValue draft.items

end BehaviorIndex.Toml
