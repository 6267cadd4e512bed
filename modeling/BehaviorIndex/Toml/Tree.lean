import BehaviorIndex.Data.Value

/-!
# The tree of a document

Statements build a tree of tables, and the tree remembers where each table comes from: it was
*defined* by a header, *implied* by the header of a table inside it, or *dotted*, made by a dotted
key. A header may define an implied table, but no table twice. A dotted key may add to a dotted
table, and reaches through implied ones, but never into a defined one. No key is given a value
twice.
-/

namespace BehaviorIndex.Toml

open Data (Value)

inductive Origin where
  | defined
  | implied
  | dotted
  deriving DecidableEq, Repr

inductive Item where
  | value (v : Value)
  | table (origin : Origin) (entries : List (String × Item))
  /-- A list of tables, to which the last one is still open. -/
  | tables (items : List Item)

abbrev Items := List (String × Item)

namespace Items

/-- Give a key an item, in its place if it has one, else at the end. -/
def set (es : Items) (key : String) (item : Item) : Items :=
  match es with
  | [] => [(key, item)]
  | (k, old) :: es => if k == key then (k, item) :: es else (k, old) :: set es key item

/-- Change the table under nested keys. Tables that are missing on the way are made: dotted ones for
a dotted key, implied ones for a header. Of a list of tables, the last one is taken. -/
def update (dotted : Bool) (change : Origin → Items → Option Items) :
    (path : List String) → Origin → Items → Option Items
  | [], origin, es => change origin es
  | key :: path, _, es =>
    match es.lookup key with
    | none => do
      let made := if dotted then .dotted else .implied
      return set es key (.table made (← update dotted change path made []))
    | some (.table origin inner) =>
      if dotted && origin == .defined then none
      else do return set es key (.table origin (← update dotted change path origin inner))
    | some (.tables items) =>
      match items.getLast? with
      | some (.table origin inner) => do
        let changed ← update dotted change path origin inner
        return set es key (.tables (items.dropLast ++ [.table origin changed]))
      | _ => none
    | some (.value _) => none

/-- Give a dotted key a value in a table. -/
def insert? (path : List String) (key : String) (v : Value) : Origin → Items → Option Items :=
  update true
    (fun origin es =>
      if (origin == .dotted) == path.isEmpty then none
      else if (es.lookup key).isSome then none
      else some (es ++ [(key, .value v)]))
    path

/-- Define a table by a header. -/
def define? (path : List String) (key : String) : Items → Option Items :=
  update false
    (fun _ es =>
      match es.lookup key with
      | none => some (es ++ [(key, .table .defined [])])
      | some (.table .implied inner) => some (set es key (.table .defined inner))
      | some _ => none)
    path .defined

/-- Open the next table of a list by a header. -/
def append? (path : List String) (key : String) : Items → Option Items :=
  update false
    (fun _ es =>
      match es.lookup key with
      | none => some (es ++ [(key, .tables [.table .defined []])])
      | some (.tables items) => some (set es key (.tables (items ++ [.table .defined []])))
      | some _ => none)
    path .defined

end Items

mutual

/-- The value of an item, without the origin of its tables. -/
def Item.toValue : Item → Value
  | .value v => v
  | .table _ entries => .table (entriesValue entries)
  | .tables items => .list (itemsValue items)

def entriesValue : List (String × Item) → List (String × Value)
  | [] => []
  | (key, item) :: es => (key, item.toValue) :: entriesValue es

def itemsValue : List Item → List Value
  | [] => []
  | item :: items => item.toValue :: itemsValue items

end

/-- The table of some entries with dotted keys, as one in braces. -/
def tableOf? (entries : List (List String × Value)) : Option Value := do
  let add (es : Items) (e : List String × Value) : Option Items :=
    match e.1.getLast? with
    | none => none
    | some key => Items.insert? e.1.dropLast key e.2 .defined es
  return .table (entriesValue (← entries.foldlM add []))

end BehaviorIndex.Toml
