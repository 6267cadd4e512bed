import BehaviorIndex.Files.Glob
import BehaviorIndex.Text.Blank

/-!
# Ignore files

An ignore file holds a pattern per line for paths relative to its directory. Blank lines and lines
that start with `#` do not count. A pattern with `!` in front brings paths back, one with a slash at
the end is for directories only, and one without any other slash applies at every depth. The last
line that matches a path decides.
-/

namespace BehaviorIndex.Ignore

/-- A line of an ignore file. -/
structure Rule where
  glob : Glob
  /-- Paths that match are kept. -/
  keeps : Bool
  directoriesOnly : Bool

inductive Verdict where
  | ignored
  | kept
  deriving DecidableEq, Repr

/-! ## Reading -/

/-- A pattern without its last slash, and whether it had one. A backslash before the slash goes with
it. -/
def splitTrailingSlash (cs : List Char) : List Char × Bool :=
  match cs.reverse with
  | '/' :: '\\' :: rest => (rest.reverse, true)
  | '/' :: rest => (rest.reverse, true)
  | _ => (cs, false)

/-- The pattern for whole relative paths. One that holds no slash applies at every depth, and one
that ends in `/**` is for what is inside a directory, but not for the directory. -/
def spread (anchored : Bool) (cs : List Char) : List Char :=
  let cs := if anchored || cs.contains '/' || cs == ['*', '*'] then cs else ['*', '*', '/'] ++ cs
  if ['*', '*', '/'].isPrefixOf cs.reverse then cs ++ ['/', '*'] else cs

/-- Blanks at the end do not count, unless the last one is a space behind a backslash. -/
def trimLine (cs : List Char) : List Char :=
  match cs.reverse with
  | ' ' :: '\\' :: _ => cs
  | _ => Text.trimEnd cs

/-- The rule that a line gives, if it gives one. -/
def Rule.ofLine? (line : List Char) : Option Rule :=
  let rule (keeps anchored : Bool) (cs : List Char) : Option Rule :=
    let (cs, directoriesOnly) := splitTrailingSlash cs
    (Glob.ofText? (spread anchored cs)).map fun glob => { glob, keeps, directoriesOnly }
  let anchor (keeps : Bool) : List Char → Option Rule
    | '/' :: cs => rule keeps true cs
    | cs => rule keeps false cs
  if line.head? == some '#' then none
  else
    match trimLine line with
    | [] => none
    | '\\' :: '!' :: cs => rule false false ('!' :: cs)
    | '\\' :: '#' :: cs => rule false false ('#' :: cs)
    | '!' :: cs => anchor true cs
    | cs => anchor false cs

/-- The lines of a file, without their ends. -/
def splitBytes : List UInt8 → List (List UInt8)
  | [] => []
  | b :: bs =>
    if b == 10 then [] :: splitBytes bs
    else
      match splitBytes bs with
      | [] => [[b]]
      | line :: lines => (b :: line) :: lines

/-- The text of a line, without a carriage return at its end; `none` if it is no text. -/
def lineText? (bytes : List UInt8) : Option (List Char) :=
  let bytes := if bytes.getLast? == some 13 then bytes.dropLast else bytes
  (String.fromUTF8? ⟨bytes.toArray⟩).map String.toList

/-- The texts up to the first line that has none. -/
def readable : List (Option (List Char)) → List (List Char)
  | some line :: lines => line :: readable lines
  | _ => []

def dropMarks : List Char → List Char := List.dropWhile (· == '\uFEFF')

/-- The rules of an ignore file. Byte order marks in front do not count. -/
def rules (content : ByteArray) : List Rule :=
  match readable ((splitBytes content.toList).map lineText?) with
  | [] => []
  | first :: lines => (dropMarks first :: lines).filterMap Rule.ofLine?

/-! ## Applying -/

def Rule.applies (r : Rule) (path : String) (isDirectory : Bool) : Bool :=
  (!r.directoriesOnly || isDirectory) && r.glob.accepts path

/-- What the last rule that applies says of a relative path. -/
def verdict? (rules : List Rule) (path : String) (isDirectory : Bool) : Option Verdict :=
  (rules.reverse.find? (·.applies path isDirectory)).map fun r =>
    if r.keeps then .kept else .ignored

end BehaviorIndex.Ignore
