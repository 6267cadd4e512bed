import BehaviorIndex.Files.Walk
import BehaviorIndex.Index.Error
import BehaviorIndex.Index.Registry
import BehaviorIndex.Index.Statistics
import BehaviorIndex.Index.Store
import BehaviorIndex.Text.Printable
import BehaviorIndex.Timer.Clock

/-!
# Workspaces

A workspace is an index of the definitions below a root, with the numbers of its files and the
timers of files that are to be indexed again. A file is indexed as a whole: what it defines takes
the place of what it defined before. A file that cannot be read defines nothing.
-/

namespace BehaviorIndex

structure Workspace where
  settings : Settings
  root : Path
  store : Store := {}
  registry : Registry := {}
  /-- The timers, each under the normal form of a path, with the path as it was last written. -/
  clock : Timer.Clock Path Path := {}

namespace Workspace

/-- A workspace with nothing indexed. Its root is made canonical if that is possible. -/
def new (d : Disk) (settings : Settings) (root : Path) : Workspace :=
  { settings, root := d.canonical root }

/-- The workspace that settings name, else that of the current directory. -/
def ofSettings (d : Disk) (settings : Settings) : Workspace :=
  new d settings ((settings.workspaceRoot.map SystemPath.toPath).getD d.current)

/-- A short description. -/
def description (w : Workspace) : String :=
  "Workspace \x7b root: " ++ Text.quotedPath w.root ++ ", files: " ++ toString w.registry.size ++
    ", trees: " ++ toString (w.store.size .tree) ++ ", nodes: " ++ toString (w.store.size .node) ++
    " \x7d"

def isPending (w : Workspace) (p : Path) : Bool := w.clock.isPending p.normal

/-! ## Indexing -/

/-- Index a file for definitions of a kind: how many there are. -/
def indexFile (w : Workspace) (d : Disk) (p : Path) (kind : Kind) :
    Workspace × Except IndexError Nat :=
  match w.registry.register p with
  | (registry, none) => ({ w with registry }, .error .idsExhausted)
  | (registry, some id) =>
    match d.read p with
    | .error fault =>
      ({ w with registry, store := (w.store.removeFile id kind).1 },
        .error (.fileRead p fault.message))
    | .ok text =>
      let (store, count) := w.store.replace id kind (w.settings.patterns.locate id kind text)
      ({ w with registry, store }, .ok count)

/-- Index a file for definitions of the kind that its extension tells; a file of no kind is left
alone. -/
def reindex (w : Workspace) (d : Disk) (p : Path) : Workspace × Except IndexError Nat :=
  match w.settings.indexing.kindOf? p with
  | some kind => w.indexFile d p kind
  | none => (w, .ok 0)

/-- Drop a file from the index, and its timer: how many definitions it had. -/
def removeFile (w : Workspace) (p : Path) : Workspace × Nat :=
  let w := { w with clock := w.clock.cancel p.normal }
  match w.registry.id? p with
  | none => (w, 0)
  | some id =>
    let (store, trees) := w.store.removeFile id .tree
    let (store, nodes) := store.removeFile id .node
    ({ w with store }, trees + nodes)

/-- Index some files, one after the other. -/
def indexFiles (w : Workspace) (d : Disk) (files : List (Path × Kind)) : Workspace × Statistics :=
  files.foldl (fun (w, stats) (p, kind) =>
    match w.indexFile d p kind with
    | (w, .ok count) => (w, stats.recordFile kind count)
    | (w, .error e) => (w, stats.addError p e.message)) (w, {})

/-- Index all files below the root. -/
def indexAll (w : Workspace) (d : Disk) : Workspace × Statistics :=
  w.indexFiles d (Walk.walk d w.settings.indexing w.root)

end Workspace

end BehaviorIndex
