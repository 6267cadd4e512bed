import BehaviorIndex.Files.Disk
import BehaviorIndex.Watch.Event

/-!
# Changes of a disk

What is different between two states of a disk, told in notices.
-/

namespace BehaviorIndex.Watch

/-- The content of the file at a canonical path. -/
def contentAt? (d : Disk) (p : Path) : Option ByteArray :=
  match d.at? p with
  | some (.file content) => some content
  | _ => none

def changeAt? (old new : Disk) (p : Path) : Option Change :=
  match contentAt? old p, contentAt? new p with
  | none, some _ => some .create
  | some _, none => some .remove
  | some a, some b => if a.toList == b.toList then none else some .modify
  | none, none => none

/-- The notices about files that were created, removed or changed. -/
def changes (old new : Disk) : List Notice :=
  let added := new.entries.keys.filter fun p => (old.at? p).isNone
  (old.entries.keys ++ added).filterMap fun p =>
    (changeAt? old new p).map fun change => { change, paths := [p] }

end BehaviorIndex.Watch
