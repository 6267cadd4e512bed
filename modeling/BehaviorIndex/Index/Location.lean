/-!
# Kinds and locations

The index holds names of two kinds: *trees*, declared in markup, and *nodes*, declared in native
sources. A location says where a name is declared.
-/

namespace BehaviorIndex

inductive Kind where
  | tree
  | node
  deriving DecidableEq, Repr, Inhabited

namespace Kind

def all : List Kind := [tree, node]

def name : Kind → String
  | tree => "Tree"
  | node => "Node"

/-- The kind of a name, capitalized or not. -/
def ofName? (s : String) : Option Kind :=
  if s == "Tree" || s == "tree" then some tree
  else if s == "Node" || s == "node" then some node
  else none

/-- What is said of a name that is no kind. -/
def unknownMessage : String := "Unknown symbol kind"

end Kind

/-- Files are numbered from one. -/
structure FileId where
  value : UInt32
  deriving DecidableEq, Repr, Hashable, Inhabited

namespace FileId

def ofValue? (n : UInt32) : Option FileId := if n = 0 then none else some ⟨n⟩

end FileId

/-- Line and column count from zero, the column in UTF-16 units. -/
structure Location where
  file : FileId
  line : UInt32
  column : UInt32
  deriving DecidableEq, Repr, Inhabited

namespace Location

/-- The order by file, then line, then column. -/
def le (a b : Location) : Bool :=
  if a.file = b.file then
    if a.line = b.line then decide (a.column ≤ b.column) else decide (a.line < b.line)
  else decide (a.file.value < b.file.value)

end Location

end BehaviorIndex
