/-!
# The table of pending timers

At most one timer is pending for a key. Each timer has a *generation*, a number that no earlier
timer had, and the table records the generation of the pending timer of each key. A timer that has
run out *claims* its slot before its action starts; the claim fails if the slot is empty or holds
another generation. So an action never starts once its key was scheduled again or cancelled, however
late the timer notices.
-/

namespace BehaviorIndex.Timer

variable {κ : Type} [DecidableEq κ]

abbrev Generation := UInt64

/-- The pending timers, in the order they were scheduled, and the last generation given out. -/
structure Table (κ : Type) where
  slots : List (κ × Generation) := []
  last : Generation := 0

namespace Table

/-- The generation of the pending timer of a key. -/
def pending? (t : Table κ) (key : κ) : Option Generation := t.slots.lookup key

def isPending (t : Table κ) (key : κ) : Bool := (t.pending? key).isSome

def pendingCount (t : Table κ) : Nat := t.slots.length

/-- The slots without that of a key. -/
def dropKey (slots : List (κ × Generation)) (key : κ) : List (κ × Generation) :=
  slots.filter fun (k, _) => k != key

/-- The table with a new timer in the slot of a key. The timer has the table's last generation. -/
def schedule (t : Table κ) (key : κ) : Table κ :=
  { slots := dropKey t.slots key ++ [(key, t.last + 1)], last := t.last + 1 }

/-- The table without a pending timer of a key. -/
def cancel (t : Table κ) (key : κ) : Table κ := { t with slots := dropKey t.slots key }

def cancelAll (t : Table κ) : Table κ := { t with slots := [] }

/-- The table after the timer of a generation has claimed the slot of its key; `none` if the slot is
not its own any more. -/
def claim? (t : Table κ) (key : κ) (generation : Generation) : Option (Table κ) :=
  if t.pending? key = some generation then some (t.cancel key) else none

end Table

end BehaviorIndex.Timer
