import BehaviorIndex.Timer.Table

/-!
# Timers on a clock

Actions are scheduled for a key with a delay, and start when the clock reaches their deadline unless
the key was scheduled again or cancelled before. The clock counts milliseconds and moves only when
it is told to (`advance`). Timers that run out at the same time start in the order they were
scheduled.
-/

namespace BehaviorIndex.Timer

variable {κ α : Type} [DecidableEq κ]

/-- A sleeping timer. -/
structure Sleeper (κ α : Type) where
  key : κ
  generation : Generation
  deadline : Nat
  action : α

/-- A clock with the timers that sleep on it. -/
structure Clock (κ α : Type) where
  now : Nat := 0
  table : Table κ := {}
  sleepers : List (Sleeper κ α) := []

namespace Clock

/-- The sleepers that own their slots. The others have been cancelled. -/
def live (table : Table κ) (sleepers : List (Sleeper κ α)) : List (Sleeper κ α) :=
  sleepers.filter fun s => table.pending? s.key = some s.generation

/-- Drop the pending timer of a key. -/
def cancel (c : Clock κ α) (key : κ) : Clock κ α :=
  let table := c.table.cancel key
  { c with table, sleepers := live table c.sleepers }

/-- Replace any timer that is pending for a key. -/
def schedule (c : Clock κ α) (key : κ) (delay : Nat) (action : α) : Clock κ α :=
  let table := c.table.schedule key
  { c with
    table
    sleepers := (c.cancel key).sleepers ++ [⟨key, table.last, c.now + delay, action⟩] }

def cancelAll (c : Clock κ α) : Clock κ α := { c with table := c.table.cancelAll, sleepers := [] }

def isPending (c : Clock κ α) (key : κ) : Bool := c.table.isPending key

def pendingCount (c : Clock κ α) : Nat := c.table.pendingCount

/-- The first of the sleepers with the earliest deadline, if it is due at time `t`. -/
def due? (t : Nat) : List (Sleeper κ α) → Option (Sleeper κ α)
  | [] => none
  | s :: ss =>
    match due? t ss with
    | none => if s.deadline ≤ t then some s else none
    | some other => if s.deadline ≤ other.deadline then some s else some other

omit [DecidableEq κ] in
theorem mem_of_due? {t : Nat} {ss : List (Sleeper κ α)} {s : Sleeper κ α}
    (h : due? t ss = some s) : s ∈ ss := by
  induction ss with
  | nil => simp [due?] at h
  | cons r ss ih =>
    simp only [due?] at h
    split at h
    · split at h
      · cases h
        simp
      · simp at h
    · next hd =>
      split at h
      · cases h
        simp
      · cases h
        exact List.mem_cons_of_mem _ (ih hd)

/-- The other sleepers. -/
def dropSleeper (ss : List (Sleeper κ α)) (s : Sleeper κ α) : List (Sleeper κ α) :=
  ss.filter fun r => r.key != s.key || r.generation != s.generation

theorem length_dropSleeper_lt {ss : List (Sleeper κ α)} {s : Sleeper κ α} (h : s ∈ ss) :
    (dropSleeper ss s).length < ss.length :=
  List.length_filter_lt_length_iff_exists.mpr ⟨s, h, by simp⟩

/-- Wakes the timers that are due at time `t`, one after the other. Gives the actions that start,
with the times at which they do. -/
def wake (t : Nat) (c : Clock κ α) : Clock κ α × List (Nat × α) :=
  match _h : due? t c.sleepers with
  | none => (c, [])
  | some s =>
    let sleepers := dropSleeper c.sleepers s
    let now := max c.now s.deadline
    match c.table.claim? s.key s.generation with
    | none => wake t { c with now, sleepers }
    | some table =>
      let (c, started) := wake t { now, table, sleepers }
      (c, (now, s.action) :: started)
termination_by c.sleepers.length
decreasing_by all_goals exact length_dropSleeper_lt (mem_of_due? _h)

/-- Start what is due now. -/
def settle (c : Clock κ α) : Clock κ α × List (Nat × α) := c.wake c.now

/-- Move the clock on, and start what falls due on the way. -/
def advance (c : Clock κ α) (ms : Nat) : Clock κ α × List (Nat × α) :=
  let (c', started) := c.wake (c.now + ms)
  ({ c' with now := c.now + ms }, started)

end Clock

end BehaviorIndex.Timer
