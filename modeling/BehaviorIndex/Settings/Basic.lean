import BehaviorIndex.Files.Path
import BehaviorIndex.Index.Location
import BehaviorIndex.Markup.Cursor
import BehaviorIndex.Source.Definition

/-!
# Settings

What can be configured, in sections, with its defaults. The number of files that are read at a time
is by default that of the machine's CPUs. The extensions of files decide which kind of definition a
file can hold (`Indexing.kindOf?`).
-/

namespace BehaviorIndex

namespace Settings

structure Indexing where
  /-- How many files are read at a time. -/
  parallelThreads : Nat
  treeExtensions : List String := ["xml"]
  nodeExtensions : List String := ["cpp", "h", "hpp"]
  deriving DecidableEq, Repr

structure Markup where
  /-- The element that defines an entity. -/
  entityTag : String := "BehaviorTree"
  /-- The attribute that names it. -/
  idAttribute : String := "ID"
  /-- The attributes that only refer to an entity. -/
  referenceAttributes : List String := ["main_tree_to_execute"]
  deriving DecidableEq, Repr

structure Native where
  /-- The word before the name in a declaration. -/
  declarationKeyword : String := "class"
  deriving DecidableEq, Repr

structure FileWatch where
  enabled : Bool := true
  /-- How long a file must be left alone before it is indexed again. -/
  debounceMs : Nat := 200
  deriving DecidableEq, Repr

/-- Texts that differ at most in the case of ASCII letters. -/
def sameIgnoringCase (s t : String) : Bool :=
  s.toList.map Char.toLower == t.toList.map Char.toLower

namespace Indexing

/-- The defaults on a machine with some CPUs. -/
def defaults (cpus : UInt64) : Indexing := { parallelThreads := cpus.toNat }

def extensions (i : Indexing) : Kind → List String
  | .tree => i.treeExtensions
  | .node => i.nodeExtensions

/-- The kind of definitions that a file can hold, by its extension; trees are asked first. -/
def kindOf? (i : Indexing) (p : Path) : Option Kind :=
  match p.extension? with
  | none => none
  | some ext => Kind.all.find? fun kind => (i.extensions kind).any (sameIgnoringCase · ext)

end Indexing

/-- The directory that marks the root of a workspace. -/
def directoryName : String := ".treesense"

/-- The settings file, in that directory. -/
def fileName : String := "settings.toml"

/-- The name of files with patterns for what is not indexed. -/
def ignoreFileName : String := ".treesenseignore"

end Settings

structure Settings where
  version : Nat := 1
  workspaceRoot : Option SystemPath := none
  debug : Bool := false
  indexing : Settings.Indexing
  markup : Settings.Markup := {}
  native : Settings.Native := {}
  fileWatch : Settings.FileWatch := {}
  deriving DecidableEq

namespace Settings

/-- The defaults on a machine with some CPUs. -/
def defaults (cpus : UInt64) : Settings := { indexing := .defaults cpus }

/-- How definitions are written. -/
def patterns (s : Settings) : Source.Patterns :=
  ⟨s.markup.entityTag, s.markup.idAttribute, s.native.declarationKeyword⟩

/-- Which attributes refer to entities. -/
def references (s : Settings) : Markup.ReferenceAttributes :=
  ⟨s.markup.idAttribute, s.markup.referenceAttributes⟩

end Settings

end BehaviorIndex
