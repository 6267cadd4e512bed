import BehaviorIndex.Command.Arguments
import BehaviorIndex.Files.Path
import BehaviorIndex.Index.Location
import BehaviorIndex.Report.Output
import BehaviorIndex.Text.Numeral

/-!
# Commands

What can be asked for on the command line. The options for the settings file and for JSON may stand
before or behind the name of the command; the ones behind it are the stronger ones.
-/

namespace BehaviorIndex

inductive Command where
  /-- Start a workspace in the current directory. -/
  | init (force : Bool)
  /-- Show the settings. -/
  | config
  /-- Index a workspace, or only list its files. -/
  | index (path : Option Path) (threads : Option Nat) (dryRun : Bool)
  /-- Find where a name is defined. -/
  | find (kind : Kind) (name : String)
  /-- Show the structure of a tree in a file. -/
  | outline (file : Path) (name : String)
  /-- Show the documentation of a node. -/
  | doc (name : String)
  /-- List the trees of a file. -/
  | symbols (file : Path)
  /-- List the names that start with a text. -/
  | complete (kind : Kind) (start : String)
  /-- Show what stands at a position of a file, counted from zero. -/
  | hover (file : Path) (line column : Nat)
  /-- Keep the index live. -/
  | watch (path : Option Path)
  deriving DecidableEq, Repr

/-- A command with the options that all commands have. -/
structure Invocation where
  settingsFile : Option Path := none
  format : Report.Format := .text
  command : Command
  deriving DecidableEq, Repr

namespace Command

def helpFlag : Flag := { long := "help", short := some 'h' }

def versionFlag : Flag := { long := "version", short := some 'V' }

def globalFlags : List Flag :=
  [helpFlag, { long := "config", short := some 'c', takesValue := true }, { long := "json" }]

def nodeFlag : Flag := { long := "node" }

/-- The options of a command, by its name. -/
def flagsOf? : String → Option (List Flag)
  | "init" => some [{ long := "force", short := some 'f' }]
  | "index" =>
    some [{ long := "threads", short := some 't', takesValue := true }, { long := "dry-run" }]
  | "find" | "complete" => some [nodeFlag]
  | "config" | "outline" | "doc" | "symbols" | "hover" | "watch" => some []
  | _ => none

/-- A path may not be empty. -/
def path (s : String) : Except Usage Path := if s.isEmpty then .error .misuse else .ok s

/-- A number in base ten below a bound. -/
def number (bound : Nat) (s : String) : Except Usage Nat :=
  match Text.boundedOf? 10 bound s.toList with
  | some n => .ok n
  | none => .error .misuse

def optional (f : String → Except Usage α) : Option String → Except Usage (Option α)
  | none => .ok none
  | some s => (f s).map some

def kindOf (a : Arguments) : Kind := if a.has "node" then .node else .tree

/-- The command with a name and arguments. -/
def ofArguments (name : String) (a : Arguments) : Except Usage Command :=
  match name, a.operands with
  | "init", [] => .ok (.init (a.has "force"))
  | "config", [] => .ok .config
  | "index", operands => do
    if 1 < operands.length then .error .misuse
    else
      let root ← optional path operands.head?
      let threads ← optional (number UInt64.size) (a.value? "threads")
      return .index root threads (a.has "dry-run")
  | "find", [name] => .ok (.find (kindOf a) name)
  | "outline", [file, name] => do return .outline (← path file) name
  | "doc", [name] => .ok (.doc name)
  | "symbols", [file] => do return .symbols (← path file)
  | "complete", [] => .ok (.complete (kindOf a) "")
  | "complete", [start] => .ok (.complete (kindOf a) start)
  | "hover", [file, line, column] => do
    return .hover (← path file) (← number UInt32.size line) (← number UInt32.size column)
  | "watch", [] => .ok (.watch none)
  | "watch", [root] => do return .watch (some (← path root))
  | _, _ => .error .misuse

/-- Reads a command line, without the name of the program. -/
def parse (args : List String) : Except Usage Invocation := do
  let (outer, rest) ← readArguments (versionFlag :: globalFlags) true {} args
  match outer.operands with
  | [name] =>
    if name == "help" then
      match rest with
      | [] => .error .help
      | topic :: _ => .error (if topic == "help" || (flagsOf? topic).isSome then .help else .misuse)
    else
      match flagsOf? name with
      | none => .error .misuse
      | some flags =>
        let (inner, _) ← readArguments (globalFlags ++ flags) false {} rest
        let settingsFile ← optional path (inner.value? "config" <|> outer.value? "config")
        let command ← ofArguments name inner
        let json := inner.has "json" || outer.has "json"
        return { settingsFile, command, format := if json then .json else .text }
  | _ => .error .misuse

end Command

end BehaviorIndex
