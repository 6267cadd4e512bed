import BehaviorIndex.Markup.Nesting
import BehaviorIndex.Markup.Prolog
import BehaviorIndex.Markup.Reader

/-!
# Documents

A document is one element, the root, with what may stand around it. `readRoot?` decides whether a
text is a document and gives the root as it is written; `parse` folds it into a node.

**Errors.** A text that is no document is malformed, unless its tags are nested beyond the limit:
then that is what is reported, because deep nesting alone can exhaust the memory for open tags. In a
document, the first fault of the root in document order is reported.
-/

namespace BehaviorIndex.Markup

/-- Why a text has no tree. Lines and columns count from one. -/
inductive ParseError where
  | notReady (language reason : String)
  | malformed (line column : Nat) (reason : String)
  | mismatchedTag (expected found : String) (line : Nat)
  | noRoot
  | nestingTooDeep (limit : Nat)
  deriving DecidableEq, Repr

def ParseError.message : ParseError → String
  | notReady language reason => s!"Failed to initialize {language} parser: {reason}"
  | malformed line column reason =>
    s!"Failed to parse markup at line {line}, column {column}: {reason}"
  | mismatchedTag expected found line =>
    s!"Closing tag </{found}> at line {line} does not match <{expected}>"
  | noRoot => "Document has no root element"
  | nestingTooDeep limit => s!"Element nesting exceeds the limit of {limit} levels"

/-- The error of a text that is no document. -/
def ParseError.noDocument : ParseError := .malformed 1 1 "malformed document"

def Fault.toError : Fault → ParseError
  | .mismatchedTag expected stray => .mismatchedTag expected stray.found stray.line
  | .nestingTooDeep => .nestingTooDeep maxNesting

/-- A text without the byte order mark that may begin it. -/
def skipMark : List Char → List Char
  | [] => []
  | c :: cs => if c == '\uFEFF' then cs else c :: cs

/-- The root element of a document. -/
def readRoot? (cs : List Char) : Option Element :=
  match element? (cs.count '\n') (skipProlog (skipMark cs)) with
  | some (root, rest) => if (skipAsides rest).isEmpty then some root else none
  | none => none

/-- The tree of a document. -/
def parse (text : String) : Except ParseError Node :=
  match readRoot? text.toList with
  | some root =>
    match root.fault? 1 with
    | some fault => .error fault.toError
    | none => .ok root.toNode
  | none =>
    if nestsBeyond maxNesting 0 text.toList then .error (.nestingTooDeep maxNesting)
    else .error .noDocument

end BehaviorIndex.Markup
