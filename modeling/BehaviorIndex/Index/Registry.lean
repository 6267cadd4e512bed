import BehaviorIndex.Files.Path
import BehaviorIndex.Index.Location
import Std.Data.TreeMap

/-!
# The registry of files

Each path gets a number when it is first seen, and keeps it. The numbers come from a counter of 32
bits that starts at one. Zero is no number: when the counter comes round to it, no number is given
out, and the counter goes on.
-/

namespace BehaviorIndex

open Std

structure Registry where
  byPath : TreeMap String FileId := ∅
  byId : TreeMap UInt32 Path := ∅
  next : UInt32 := 1

namespace Registry

def id? (r : Registry) (p : Path) : Option FileId := r.byPath[p.normal]?

/-- The path with a number, as it was first written. -/
def path? (r : Registry) (id : FileId) : Option Path := r.byId[id.value]?

def size (r : Registry) : Nat := r.byId.size

def isEmpty (r : Registry) : Bool := r.size == 0

/-- The registry with a number for `p`, and that number; `none` if the counter stands at zero. -/
def register (r : Registry) (p : Path) : Registry × Option FileId :=
  match r.id? p with
  | some id => (r, some id)
  | none =>
    match FileId.ofValue? r.next with
    | none => ({ r with next := r.next + 1 }, none)
    | some id =>
      ({ byPath := r.byPath.insert p.normal id
         byId := r.byId.insert id.value p
         next := r.next + 1 }, some id)

end Registry

end BehaviorIndex
