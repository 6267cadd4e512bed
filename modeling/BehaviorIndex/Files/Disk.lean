import BehaviorIndex.Files.Path
import Std.Data.TreeMap

/-!
# The disk

A tree of directories and files, with a current directory from which relative paths are followed.
Entries are kept under their *canonical* path: absolute, without dots. A path leads to an entry when
every name on its way but the last is a directory (`resolve`); `..` goes up from the directory
reached.
-/

namespace BehaviorIndex

open Std

namespace Disk

inductive Entry where
  | directory
  | file (content : ByteArray)

/-- Why a file cannot be read or written. -/
inductive Fault where
  | missing
  | notDirectory
  | isDirectory
  | notText
  | occupied
  deriving DecidableEq, Repr

def Fault.message : Fault → String
  | missing => "No such file or directory (os error 2)"
  | notDirectory => "Not a directory (os error 20)"
  | isDirectory => "Is a directory (os error 21)"
  | notText => "stream did not contain valid UTF-8"
  | occupied => "File exists (os error 17)"

end Disk

structure Disk where
  entries : TreeMap Path Disk.Entry := ∅
  current : Path := "/"

namespace Disk

/-- The canonical path with these names. -/
def pathOf (names : List String) : Path := "/" ++ "/".intercalate names

/-- The entry at a canonical path. -/
def at? (d : Disk) (p : Path) : Option Entry := if p == "/" then some .directory else d.entries[p]?

/-- Follow names from a directory, given by its own names with the last one first. -/
def follow (d : Disk) (here : List String) : List String → Except Fault (List String)
  | [] => .ok here
  | ".." :: names => d.follow here.tail names
  | name :: names =>
    match d.at? (pathOf (name :: here).reverse) with
    | none => .error .missing
    | some .directory => d.follow (name :: here) names
    | some (.file _) => if names.isEmpty then .ok (name :: here) else .error .notDirectory

/-- A path that ends in a slash or a dot asks for a directory. -/
def asksForDirectory (p : Path) : Bool :=
  match (Path.splitSlashes p.toList).getLast? with
  | some part => part == [] || part == ['.']
  | none => false

/-- The canonical path that a path leads to. -/
def resolve (d : Disk) (p : Path) : Except Fault Path :=
  if p.isEmpty then .error .missing
  else
    match d.follow [] (d.current.join p).names with
    | .error e => .error e
    | .ok here =>
      let canonical := pathOf here.reverse
      match d.at? canonical with
      | some (.file _) => if asksForDirectory p then .error .notDirectory else .ok canonical
      | _ => .ok canonical

def entry? (d : Disk) (p : Path) : Option Entry := (d.resolve p).toOption.bind d.at?

def isThere (d : Disk) (p : Path) : Bool := (d.entry? p).isSome

def isFile (d : Disk) (p : Path) : Bool :=
  match d.entry? p with
  | some (.file _) => true
  | _ => false

def isDirectory (d : Disk) (p : Path) : Bool :=
  match d.entry? p with
  | some .directory => true
  | _ => false

/-- The canonical path, or the path itself if it leads nowhere. -/
def canonical (d : Disk) (p : Path) : Path := (d.resolve p).toOption.getD p

def readBytes (d : Disk) (p : Path) : Except Fault ByteArray :=
  match d.resolve p with
  | .error e => .error e
  | .ok p =>
    match d.at? p with
    | some (.file content) => .ok content
    | some .directory => .error .isDirectory
    | none => .error .missing

/-- The text of a file. -/
def read (d : Disk) (p : Path) : Except Fault String :=
  match d.readBytes p with
  | .error e => .error e
  | .ok content =>
    match String.fromUTF8? content with
    | some text => .ok text
    | none => .error .notText

/-- The names in the directory at a canonical path, in order. -/
def names (d : Disk) (p : Path) : List String :=
  d.entries.keys.filterMap fun q => q.fileName?.filter fun name => p.join name == q

/-! ## Changes -/

/-- Make directories of names from a directory on, as far as they are missing. -/
def makeDirectoriesFrom (d : Disk) (here : List String) : List String → Except Fault Disk
  | [] => .ok d
  | ".." :: names => d.makeDirectoriesFrom here.tail names
  | name :: names =>
    let p := pathOf (name :: here).reverse
    match d.at? p with
    | some .directory => d.makeDirectoriesFrom (name :: here) names
    | some (.file _) => .error (if names.isEmpty then .occupied else .notDirectory)
    | none =>
      { d with entries := d.entries.insert p .directory }.makeDirectoriesFrom (name :: here) names

/-- Make a directory, and those above it. -/
def makeDirectories (d : Disk) (p : Path) : Except Fault Disk :=
  d.makeDirectoriesFrom [] (d.current.join p).names

/-- Give a file a content. Its directory must exist. -/
def write (d : Disk) (p : Path) (content : ByteArray) : Except Fault Disk :=
  match (d.current.join p).names.reverse with
  | [] => .error .isDirectory
  | name :: above =>
    match d.follow [] above.reverse with
    | .error e => .error e
    | .ok here =>
      match d.at? (pathOf here.reverse) with
      | some .directory =>
        let target := if name == ".." then here.tail else name :: here
        match d.at? (pathOf target.reverse) with
        | some .directory => .error .isDirectory
        | some (.file _) =>
          if asksForDirectory p then .error .notDirectory
          else .ok { d with entries := d.entries.insert (pathOf target.reverse) (.file content) }
        | none =>
          if asksForDirectory p then .error .isDirectory
          else .ok { d with entries := d.entries.insert (pathOf target.reverse) (.file content) }
      | _ => .error .notDirectory

def writeText (d : Disk) (p : Path) (text : String) : Except Fault Disk := d.write p text.toUTF8

/-- Remove a file. -/
def delete (d : Disk) (p : Path) : Disk :=
  match d.resolve p with
  | .error _ => d
  | .ok q => { d with entries := d.entries.erase q }

end Disk

end BehaviorIndex
