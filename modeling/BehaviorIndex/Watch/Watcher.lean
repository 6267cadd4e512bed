import BehaviorIndex.Files.Disk
import BehaviorIndex.Index.Error
import BehaviorIndex.Text.Printable

/-!
# Watchers

A watcher listens for changes below a root, which must be there when it starts.
-/

namespace BehaviorIndex.Watch

structure Watcher where
  root : Path
  deriving DecidableEq, Repr

namespace Watcher

def start (d : Disk) (root : Path) : Except IndexError Watcher :=
  if d.isThere root then .ok ⟨root⟩
  else .error (.watch s!"cannot watch {root}: No path was found.")

/-- A short description. -/
def description (w : Watcher) : String :=
  "FileSystemWatcher \x7b root: " ++ Text.quotedPath w.root ++ " \x7d"

end Watcher

end BehaviorIndex.Watch
