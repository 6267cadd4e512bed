import BehaviorIndex.Settings.Basic

/-!
# File events

The file system tells of changes in *notices*, each about some paths. `Notice.events` turns a notice
into *events*, each about one path, and keeps those about files that can hold definitions. A file
that is renamed is deleted under its old name and created under the new one.
-/

namespace BehaviorIndex.Watch

inductive Event where
  | created (path : Path)
  | changed (path : Path)
  | deleted (path : Path)
  deriving DecidableEq, Repr

def Event.path : Event → Path
  | created p | changed p | deleted p => p

/-- What a notice says of its paths. -/
inductive Change where
  | create
  | remove
  /-- The paths are old names. -/
  | renameFrom
  /-- The paths are new names. -/
  | renameTo
  /-- The paths are an old name and a new one. -/
  | renameBoth
  /-- Any other change of a file or its name. -/
  | modify
  /-- Nothing that matters to the index. -/
  | other
  deriving DecidableEq, Repr

structure Notice where
  change : Change
  paths : List Path

namespace Notice

/-- The events of a notice, about all its paths. -/
def allEvents (n : Notice) : List Event :=
  match n.change with
  | .create | .renameTo => n.paths.map .created
  | .remove | .renameFrom => n.paths.map .deleted
  | .renameBoth =>
    match n.paths with
    | [old, new] => [.deleted old, .created new]
    | _ => []
  | .modify => n.paths.map .changed
  | .other => []

/-- The events of a notice about files that can hold definitions and are not hidden. -/
def events (indexing : Settings.Indexing) (n : Notice) : List Event :=
  n.allEvents.filter fun e => (indexing.kindOf? e.path).isSome && !e.path.isHidden

end Notice

end BehaviorIndex.Watch
