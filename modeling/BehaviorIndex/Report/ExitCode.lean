import BehaviorIndex.Index.Error

/-!
# Exit codes

How a command ends: zero for success, one and two for errors that say nothing more, and a number for
each error that a script can act on.
-/

namespace BehaviorIndex.Report

inductive ExitCode where
  | success
  | generalError
  | blockingError
  | notFound
  | parseError
  | readError
  | settingsError
  deriving DecidableEq, Repr

namespace ExitCode

def all : List ExitCode :=
  [success, generalError, blockingError, notFound, parseError, readError, settingsError]

def value : ExitCode → Nat
  | success => 0
  | generalError => 1
  | blockingError => 2
  | notFound => 3
  | parseError => 4
  | readError => 5
  | settingsError => 6

def name : ExitCode → String
  | success => "OK"
  | generalError => "GENERAL_ERROR"
  | blockingError => "BLOCKING_ERROR"
  | notFound => "NOT_FOUND"
  | parseError => "PARSE_ERROR"
  | readError => "IO_ERROR"
  | settingsError => "CONFIG_ERROR"

def isSuccess (c : ExitCode) : Bool := c == success

def ofError : IndexError → ExitCode
  | .parse .. => parseError
  | .fileRead .. => readError
  | .settings _ => settingsError
  | .idsExhausted => blockingError
  | .watch _ => generalError

end ExitCode

end BehaviorIndex.Report
