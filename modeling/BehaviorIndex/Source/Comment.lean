import BehaviorIndex.Text.Blank
import BehaviorIndex.Text.Search

/-!
# The comment above a declaration

A declaration is documented by the comment directly above it; blank lines between the two do not
count. A block comment is taken from the line that closes it up to the line that opens it, other
comments as a run of lines that begin with `//` or `*`. A block that is opened behind something else
on its closing line belongs to that, and is not taken.
-/

namespace BehaviorIndex.Source

open Text

def isLineComment (line : List Char) : Bool :=
  ['/', '/'].isPrefixOf line || ['*'].isPrefixOf line

def closesBlock (line : List Char) : Bool := endsWith ['*', '/'] line

def opensBlock (line : List Char) : Bool := contains ['/', '*'] line

/-- The block is opened on this line, behind something else. -/
def opensBlockLate (line : List Char) : Bool :=
  (breakOn ['/', '*'] line).any fun (before, _) => !before.isEmpty

/-- The beginning of a list up to the first element that satisfies `p`, that element included. -/
def takeThrough {α : Type} (p : α → Bool) : List α → List α
  | [] => []
  | a :: as => if p a then [a] else a :: takeThrough p as

/-- The lines of a comment, out of the trimmed lines from the nearest upward, the first of which is
not empty. -/
def commentUpward : List (List Char) → List (List Char)
  | [] => []
  | nearest :: above =>
    if closesBlock nearest then
      if opensBlockLate nearest then [] else takeThrough opensBlock (nearest :: above)
    else (nearest :: above).takeWhile isLineComment

/-- The lines of the comment above line `declaration`, trimmed, in the order they are written. -/
def commentAbove (lines : List (List Char)) (declaration : Nat) : List (List Char) :=
  let upward := ((lines.take declaration).map trim).reverse
  (commentUpward (upward.dropWhile List.isEmpty)).reverse

end BehaviorIndex.Source
