import BehaviorIndex.Files.Disk
import BehaviorIndex.Files.Ignore
import BehaviorIndex.Settings.Basic

/-!
# Walking a directory

`walk` lists the files below a root that can hold definitions. Four kinds of ignore files are read,
in the directories on the way and in those above the root. A kind earlier in `sources` is stronger
than a later one, and within a kind the directory that is nearer to the path is stronger. What is
below an ignored directory is not looked at. Hidden directories are entered, but hidden files are
not listed.

The disk has no symbolic links, and the rules that a user keeps for all repositories are left out.
-/

namespace BehaviorIndex.Walk

open Ignore (Rule Verdict)

/-- The kinds of ignore files, the strongest first, as paths from their directory. -/
def sources : List Path := [Settings.ignoreFileName, ".ignore", ".gitignore", ".git/info/exclude"]

/-- The rules found in a directory, for each kind of ignore file. -/
structure Level where
  directory : Path
  rules : List (List Rule)

def level (d : Disk) (directory : Path) : Level where
  directory
  rules := sources.map fun source =>
    match d.readBytes (directory.join source) with
    | .ok content => Ignore.rules content
    | .error _ => []

/-- A canonical path as seen from a directory above it. -/
def relativeTo (directory p : Path) : String :=
  "/".intercalate (p.names.drop directory.names.length)

/-- What the levels, the nearest first, say of a path by one kind of ignore files. -/
def verdictOf? (levels : List Level) (source : Nat) (p : Path) (isDirectory : Bool) :
    Option Verdict :=
  levels.findSome? fun l =>
    Ignore.verdict? (l.rules.getD source []) (relativeTo l.directory p) isDirectory

def isIgnored (levels : List Level) (p : Path) (isDirectory : Bool) : Bool :=
  ((List.range sources.length).findSome? fun source => verdictOf? levels source p isDirectory) ==
    some .ignored

/-- The files below the entry at a canonical path. `depth` bounds how far directories are entered.
-/
def filesBelow (d : Disk) : (depth : Nat) → (levels : List Level) → Path → List Path
  | 0, _, _ => []
  | depth + 1, levels, p =>
    match d.at? p with
    | none => []
    | some (.file _) => [p]
    | some .directory =>
      let levels := level d p :: levels
      (d.names p).flatMap fun name =>
        let q := p.join name
        let isDirectory := match d.at? q with
          | some .directory => true
          | _ => false
        if isIgnored levels q isDirectory then [] else filesBelow d depth levels q

/-- All files below a root, however it is written. There are no more levels than entries. -/
def files (d : Disk) (root : Path) : List Path :=
  match d.resolve root with
  | .error _ => []
  | .ok root =>
    let above := match root.parent? with
      | some p => p.ancestors.map (level d)
      | none => []
    filesBelow d (d.entries.size + 2) above root

/-- The files below a root that can hold definitions, each with the kind of them. -/
def walk (d : Disk) (indexing : Settings.Indexing) (root : Path) : List (Path × Kind) :=
  (files d root).filterMap fun p =>
    if p.isHidden then none else (indexing.kindOf? p).map fun kind => (p, kind)

end BehaviorIndex.Walk
