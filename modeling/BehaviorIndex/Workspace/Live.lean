import BehaviorIndex.Watch.Event
import BehaviorIndex.Workspace.Basic

/-!
# Keeping a workspace live

A file that was created or changed is indexed again once it has been left alone for a while: each
event starts its timer anew. A file that was deleted is dropped at once.
-/

namespace BehaviorIndex.Workspace

/-- Act on a file event. -/
def handle (w : Workspace) : Watch.Event → Workspace
  | .created p | .changed p =>
    if (w.settings.indexing.kindOf? p).isSome then
      { w with clock := w.clock.schedule p.normal w.settings.fileWatch.debounceMs p }
    else w
  | .deleted p => (w.removeFile p).1

/-- Index files again whose timers ran out, in that order. -/
def reindexAll (w : Workspace) (d : Disk) (paths : List Path) : Workspace :=
  paths.foldl (fun w p => (w.reindex d p).1) w

/-- Let time pass. -/
def advance (w : Workspace) (d : Disk) (ms : Nat) : Workspace :=
  let (clock, fired) := w.clock.advance ms
  reindexAll { w with clock } d (fired.map Prod.snd)

/-- Index files again that are due by now. -/
def settle (w : Workspace) (d : Disk) : Workspace :=
  let (clock, fired) := w.clock.settle
  reindexAll { w with clock } d (fired.map Prod.snd)

/-- Forget all timers. -/
def stop (w : Workspace) : Workspace := { w with clock := w.clock.cancelAll }

end BehaviorIndex.Workspace
