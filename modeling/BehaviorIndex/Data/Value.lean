import BehaviorIndex.Text.Printable
import BehaviorIndex.Text.Shortest

/-!
# Values

Values as they stand in a settings file or in the environment: texts, numbers, truth values, lists
and tables. Layers of values are put on one another by `merge`: tables key by key, everything else
as a whole.
-/

namespace BehaviorIndex.Data

inductive Value where
  | text (s : String)
  /-- An integer that may be negative. -/
  | int (n : Int)
  /-- An integer that may not. -/
  | nat (n : Nat)
  | float (x : Float)
  | bool (b : Bool)
  | list (items : List Value)
  | table (entries : List (String × Value))
  deriving Inhabited

abbrev Entries := List (String × Value)

namespace Value

/-- What is said of a value that is not the expected one. -/
def description : Value → String
  | text s => "string " ++ Text.quoted s
  | int n => "signed int `" ++ toString n ++ "`"
  | nat n => "unsigned int `" ++ toString n ++ "`"
  | float x => "float `" ++ Text.plainFloat x ++ "`"
  | bool b => "bool " ++ toString b
  | list _ => "sequence"
  | table _ => "map"

end Value

namespace Entries

def get? (es : Entries) (key : String) : Option Value := es.lookup key

/-- Give a key a value, in its place if it has one, else at the end. -/
def set (es : Entries) (key : String) (v : Value) : Entries :=
  match es with
  | [] => [(key, v)]
  | (k, old) :: es => if k == key then (k, v) :: es else (k, old) :: set es key v

/-- The value under nested keys. -/
def at? (es : Entries) : (path : List String) → Option Value
  | [] => some (.table es)
  | [key] => es.get? key
  | key :: path =>
    match es.get? key with
    | some (.table inner) => Entries.at? inner path
    | _ => none

end Entries

mutual

/-- One value on top of another. -/
def Value.merge (lower : Value) : Value → Value
  | .table upper =>
    match lower with
    | .table lower => .table (mergeEntries lower upper)
    | _ => .table upper
  | upper => upper

/-- The entries of one table on top of those of another. -/
def mergeEntries (lower : Entries) : List (String × Value) → Entries
  | [] => lower
  | (key, v) :: upper =>
    let merged := match lower.get? key with
      | some old => old.merge v
      | none => v
    mergeEntries (lower.set key merged) upper

end

/-- A value under nested keys, and nothing else. -/
def nest (path : List String) (v : Value) : Value :=
  path.foldr (fun key inner => .table [(key, inner)]) v

end BehaviorIndex.Data
