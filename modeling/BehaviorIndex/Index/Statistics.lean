import BehaviorIndex.Files.Path
import BehaviorIndex.Index.Location

/-!
# Statistics of an indexing run

How many files were indexed and how many could not be read, and how many definitions were found. Of
the errors only the first hundred are kept.
-/

namespace BehaviorIndex

/-- How many errors are kept. -/
def maxReportedErrors : Nat := 100

/-- How many errors are shown. -/
def maxShownErrors : Nat := 5

structure Statistics where
  filesIndexed : Nat := 0
  filesFailed : Nat := 0
  treesFound : Nat := 0
  nodesFound : Nat := 0
  errors : List (Path × String) := []

namespace Statistics

def recordFile (s : Statistics) (kind : Kind) (definitions : Nat) : Statistics :=
  let s := { s with filesIndexed := s.filesIndexed + 1 }
  match kind with
  | .tree => { s with treesFound := s.treesFound + definitions }
  | .node => { s with nodesFound := s.nodesFound + definitions }

def addError (s : Statistics) (path : Path) (message : String) : Statistics :=
  { s with
    errors :=
      if s.errors.length < maxReportedErrors then s.errors ++ [(path, message)] else s.errors
    filesFailed := s.filesFailed + 1 }

def symbolsFound (s : Statistics) : Nat := s.treesFound + s.nodesFound

/-- The lines of the report, without those on the time it took. -/
def report (s : Statistics) : List String :=
  ["", "Indexing Complete:", s!"  Files indexed: {s.filesIndexed}",
    s!"  Files failed: {s.filesFailed}", s!"  Trees found: {s.treesFound}",
    s!"  Nodes found: {s.nodesFound}"] ++
  if s.errors.isEmpty then []
  else
    ["", s!"Errors (showing first {min s.errors.length maxShownErrors}):"] ++
      (s.errors.take maxShownErrors).map (fun (path, message) => s!"  {path}: {message}") ++
      if maxShownErrors < s.errors.length then
        [s!"  ... and {s.errors.length - maxShownErrors} more errors"]
      else []

end Statistics

end BehaviorIndex
