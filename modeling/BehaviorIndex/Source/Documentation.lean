import BehaviorIndex.Source.Comment

/-!
# Documentation

A documentation comment says what a node does and which ports it has. Its lines are read one by one,
without the comment signs. A *marker* says where the lines behind it belong: a brief, which also
carries its text, is followed by the description; the headers `Input Ports:` and `Output Ports:`, in
any case, are followed by the entries of the two port lists.
-/

namespace BehaviorIndex.Source

open Text

structure Sections where
  brief : String := ""
  description : List String := []
  inputPorts : List String := []
  outputPorts : List String := []
  deriving DecidableEq, Repr

namespace Sections

def isEmpty (s : Sections) : Bool :=
  s.brief.isEmpty && s.description.isEmpty && s.inputPorts.isEmpty && s.outputPorts.isEmpty

end Sections

/-! ## Lines -/

/-- A text without `pat` at its start, if it stands there. -/
def dropLeading (pat cs : List Char) : List Char := (afterPrefix? pat cs).getD cs

/-- A text without the sign that opens a comment: `/*` and one more star, or any number of slashes
from two on. -/
def dropOpening (cs : List Char) : List Char :=
  match afterPrefix? ['/', '*'] cs with
  | some rest => dropLeading ['*'] rest
  | none =>
    match afterPrefix? ['/', '/'] cs with
    | some rest => rest.dropWhile (· == '/')
    | none => cs

/-- A text without `*/` and the blanks behind it, if it ends so. -/
def dropClosing (cs : List Char) : List Char :=
  match (trimEnd cs).reverse with
  | '/' :: '*' :: rest => rest.reverse
  | _ => cs

/-- What a comment line says, without comment signs and the blanks around. -/
def stripLine (raw : List Char) : List Char :=
  trim (dropLeading ['*'] (trimStart (dropClosing (dropOpening (trim raw)))))

/-- The text of a brief. -/
def briefText? (line : List Char) : Option (List Char) :=
  match (afterPrefix? "@brief".toList line).or (afterPrefix? "\\brief".toList line) with
  | some rest => if rest.head?.all isBlank then some (trim rest) else none
  | none => none

/-- A header with this title, in any case; blanks may stand before its colon. -/
def isHeader (title : String) (line : List Char) : Bool :=
  let n := title.toList.length
  (line.take n).map Char.toLower == title.toList && (trimStart (line.drop n)).head? == some ':'

/-- An entry of a port list, without the dashes before it. -/
def portEntry (line : List Char) : List Char := trim (line.dropWhile (· == '-'))

/-! ## Sections -/

/-- Where a line belongs. -/
inductive Part where
  | description
  | inputPorts
  | outputPorts
  deriving DecidableEq, Repr

inductive LineRole where
  | nothing
  | brief (text : List Char)
  | header (part : Part)
  | content
  deriving DecidableEq, Repr

/-- The role of a stripped line. -/
def roleOf (line : List Char) : LineRole :=
  if line.isEmpty then .nothing
  else
    match briefText? line with
    | some text => .brief text
    | none =>
      if isHeader "input ports" line then .header .inputPorts
      else if isHeader "output ports" line then .header .outputPorts
      else .content

namespace Sections

/-- One further line of a part. -/
def add (s : Sections) (part : Part) (line : List Char) : Sections :=
  match part with
  | .description => { s with description := s.description ++ [String.ofList line] }
  | .inputPorts => { s with inputPorts := s.inputPorts ++ [String.ofList (portEntry line)] }
  | .outputPorts => { s with outputPorts := s.outputPorts ++ [String.ofList (portEntry line)] }

/-- One further line of content, when the lines belong to `part`. -/
def read : Sections × Part → List Char → Sections × Part
  | (s, part), line =>
    match roleOf line with
    | .nothing => (s, part)
    | .brief text => ({ s with brief := String.ofList text }, .description)
    | .header part => (s, part)
    | .content => (s.add part line, part)

/-- One further line of the comment. -/
def step (state : Sections × Part) (raw : List Char) : Sections × Part :=
  read state (stripLine raw)

/-- The sections of a comment. -/
def ofComment (lines : List (List Char)) : Sections := (lines.foldl step ({}, .description)).1

end Sections

/-- The documentation of the declaration on a line. -/
def documentation (lines : List (List Char)) (declaration : Nat) : Sections :=
  .ofComment (commentAbove lines declaration)

end BehaviorIndex.Source
