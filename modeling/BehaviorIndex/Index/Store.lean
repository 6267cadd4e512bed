import BehaviorIndex.Index.Location
import Std.Data.TreeMap
import Std.Data.TreeSet

/-!
# The store

The store holds, for each kind, the locations of each name. A table finds them by name, and also
knows which names each file contributes, so that the definitions of a file can be dropped without a
look at all the others.

**Order.** The locations of a name are in the order in which they came in. `replace` drops what a
file had before and appends what it has now, so a file that changes moves to the end.

**Invariant.** A name has an entry only as long as it has a location, and every location of a file
is under one of the names recorded for that file.
-/

namespace BehaviorIndex

open Std

/-- The definitions of one kind. Under each name, the location that came in last comes first. -/
structure Table where
  byName : TreeMap String (List Location) := ∅
  byFile : TreeMap UInt32 (TreeSet String) := ∅

namespace Table

/-- The locations of a name, in the order in which they came in. -/
def lookup (t : Table) (name : String) : List Location := (t.byName.getD name []).reverse

def contains (t : Table) (name : String) : Bool := t.byName.contains name

/-- The names with a definition, in ascending order. -/
def names (t : Table) : List String := t.byName.keys

def size (t : Table) : Nat := t.byName.size

/-- The entries without the locations that a file has under `name`, and how many these are. -/
def dropName (file : FileId) (entries : TreeMap String (List Location)) (name : String) :
    TreeMap String (List Location) × Nat :=
  match entries[name]? with
  | none => (entries, 0)
  | some places =>
    let kept := places.filter (·.file != file)
    (if kept.isEmpty then entries.erase name else entries.insert name kept,
      places.length - kept.length)

/-- The entries without the locations that a file has under any of `names`, and how many these
are. -/
def dropNames (file : FileId) (entries : TreeMap String (List Location)) :
    List String → TreeMap String (List Location) × Nat
  | [] => (entries, 0)
  | name :: names =>
    let (entries, n) := dropName file entries name
    let (entries, m) := dropNames file entries names
    (entries, n + m)

/-- The table without the definitions of a file, and how many these are. -/
def removeFile (t : Table) (file : FileId) : Table × Nat :=
  match t.byFile[file.value]? with
  | none => (t, 0)
  | some names =>
    let (byName, n) := dropNames file t.byName names.toList
    ({ byName, byFile := t.byFile.erase file.value }, n)

/-- The table with one further definition of a file. -/
def insert (t : Table) (file : FileId) (name : String) (place : Location) : Table :=
  { byName := t.byName.insert name (place :: t.byName.getD name [])
    byFile := t.byFile.insert file.value ((t.byFile.getD file.value ∅).insert name) }

/-- The table in which a file has exactly the given definitions. -/
def replace (t : Table) (file : FileId) (pairs : List (String × Location)) : Table :=
  pairs.foldl (fun t (name, place) => t.insert file name place) (t.removeFile file).1

end Table

/-- The definitions of both kinds. -/
structure Store where
  trees : Table := {}
  nodes : Table := {}

namespace Store

def table (s : Store) : Kind → Table
  | .tree => s.trees
  | .node => s.nodes

def setTable (s : Store) (kind : Kind) (t : Table) : Store :=
  match kind with
  | .tree => { s with trees := t }
  | .node => { s with nodes := t }

/-- The store in which a file has exactly the given definitions of a kind, and their number. -/
def replace (s : Store) (file : FileId) (kind : Kind) (pairs : List (String × Location)) :
    Store × Nat :=
  (s.setTable kind ((s.table kind).replace file pairs), pairs.length)

/-- The store without the definitions of a kind that a file has, and how many these are. -/
def removeFile (s : Store) (file : FileId) (kind : Kind) : Store × Nat :=
  let (t, n) := (s.table kind).removeFile file
  (s.setTable kind t, n)

def lookup (s : Store) (kind : Kind) (name : String) : List Location := (s.table kind).lookup name

def contains (s : Store) (kind : Kind) (name : String) : Bool := (s.table kind).contains name

def names (s : Store) (kind : Kind) : List String := (s.table kind).names

def size (s : Store) (kind : Kind) : Nat := (s.table kind).size

def isEmpty (s : Store) : Bool := Kind.all.all fun kind => s.size kind == 0

def clear (_ : Store) : Store := {}

@[simp] theorem table_setTable_self (s : Store) (kind : Kind) (t : Table) :
    (s.setTable kind t).table kind = t := by
  cases kind <;> rfl

theorem table_setTable_of_ne (s : Store) {kind other : Kind} (h : other ≠ kind) (t : Table) :
    (s.setTable kind t).table other = s.table other := by
  cases kind <;> cases other <;> simp_all [setTable, table]

end Store

end BehaviorIndex
