import BehaviorIndex.Report.ExitCode
import BehaviorIndex.Report.Json
import BehaviorIndex.Text.Lines

/-!
# Output

What a command prints, and how it ends. Results are printed as text, or as JSON in an *envelope*
that says whether the command succeeded. In text, what was not found is reported among the errors;
in JSON it is a result like any other.
-/

namespace BehaviorIndex.Report

open Text (joinLines)

inductive Format where
  | text
  | json
  deriving DecidableEq, Repr

/-! ## Envelopes -/

structure Envelope where
  success : Bool
  code : String
  message : String
  data : Option Json := none
  suggestions : List String := []
  exitCode : ExitCode

namespace Envelope

def ofData (data : Json) : Envelope where
  success := true
  code := ExitCode.success.name
  message := "Operation completed successfully"
  data := some data
  exitCode := .success

def notFoundMessage (entity name : String) : String := entity ++ " '" ++ name ++ "' not found"

def notFound (entity name : String) : Envelope where
  success := false
  code := ExitCode.notFound.name
  message := notFoundMessage entity name
  suggestions :=
    ["Check the spelling", "Run 'treesense index' to confirm the file is picked up"]
  exitCode := .notFound

def ofError (e : IndexError) : Envelope where
  success := false
  code := e.code
  message := e.message
  suggestions := e.suggestions
  exitCode := .ofError e

def toJson (e : Envelope) : Json :=
  .obj <|
    [("status", .str (if e.success then "success" else "error")), ("code", .str e.code),
      ("message", .str e.message)] ++
    (e.data.map fun d => ("data", d)).toList ++
    (if e.suggestions.isEmpty then [] else [("suggestions", .strings e.suggestions)]) ++
    [("exit_code", .ofNat e.exitCode.value)]

def render (e : Envelope) : String := e.toJson.render

end Envelope

/-! ## What a command prints -/

structure Output where
  stdout : String := ""
  stderr : String := ""
  exitCode : Nat := 0

namespace Output

/-- A result, as the lines of its text or as the data of an envelope. -/
def success (format : Format) (text : List String) (data : Json) : Output :=
  match format with
  | .text => { stdout := joinLines text }
  | .json => { stdout := joinLines [(Envelope.ofData data).render] }

def notFound (format : Format) (entity name : String) : Output :=
  match format with
  | .text =>
    { stderr := joinLines [Envelope.notFoundMessage entity name], exitCode := ExitCode.notFound.value }
  | .json =>
    { stdout := joinLines [(Envelope.notFound entity name).render]
      exitCode := ExitCode.notFound.value }

def error (format : Format) (e : IndexError) : Output :=
  { stderr := match format with
      | .text => joinLines (("Error: " ++ e.message) :: e.suggestions.map ("  Suggestion: " ++ ·))
      | .json => joinLines [(Envelope.ofError e).render]
    exitCode := (ExitCode.ofError e).value }

/-- A remark, which only readers of text get to see. -/
def info (format : Format) (line : String) : Output :=
  match format with
  | .text => { stdout := joinLines [line] }
  | .json => {}

/-- One output behind another; the second one says how the command ends. -/
def andThen (a b : Output) : Output :=
  { stdout := a.stdout ++ b.stdout, stderr := a.stderr ++ b.stderr, exitCode := b.exitCode }

/-- A result that may be missing. -/
def item (format : Format) (text : α → String) (data : α → Json) (entity name : String) :
    Option α → Output
  | some a => success format [text a] (data a)
  | none => notFound format entity name

/-- Results, at least one of which is expected. -/
def collection (format : Format) (text : α → String) (data : α → Json) (entity query : String) :
    List α → Output
  | [] => notFound format entity query
  | as => success format (as.map text) (.arr (as.map data))

end Output

end BehaviorIndex.Report
