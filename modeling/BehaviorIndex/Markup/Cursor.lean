import BehaviorIndex.Text.Blank
import BehaviorIndex.Text.Search

/-!
# The cursor on a line

What a cursor in a line of markup touches. Its column counts UTF-16 units and splits the line in
two (`splitColumn`); a column inside a character, or beyond the line, is moved right or left to the
nearest place between characters.
-/

namespace BehaviorIndex.Markup

open Text

/-- The line before and after a column. -/
def splitColumn : Nat → List Char → List Char × List Char
  | _, [] => ([], [])
  | 0, cs => ([], cs)
  | column, c :: cs =>
    let (before, after) := splitColumn (column - unitSize c) cs
    (c :: before, after)

/-- The byte offset of a column. -/
def byteOffset (column : Nat) (line : List Char) : Nat := byteSize (splitColumn column line).1

/-! ## Quoted words -/

/-- A text in double quotes, with the offset of its opening quote. -/
structure QuotedWord where
  start : Nat
  word : List Char

/-- The offset of the closing quote. -/
def QuotedWord.stop (q : QuotedWord) : Nat := q.start + 1 + byteSize q.word

/-- The quoted texts of a line that starts at `offset`: quotes pair off from left to right. -/
def quotedWords (offset : Nat) (line : List Char) : List QuotedWord :=
  match _h : line.dropWhile (· != '"') with
  | [] => []
  | _ :: rest =>
    match _h' : rest.dropWhile (· != '"') with
    | [] => []
    | _ :: after =>
      let q : QuotedWord :=
        ⟨offset + byteSize (line.takeWhile (· != '"')), rest.takeWhile (· != '"')⟩
      q :: quotedWords (q.stop + 1) after
termination_by line.length
decreasing_by
  have h₁ := (List.dropWhile_suffix (l := line) (· != '"')).length_le
  have h₂ := (List.dropWhile_suffix (l := rest) (· != '"')).length_le
  rw [_h, List.length_cons] at h₁
  rw [_h', List.length_cons] at h₂
  omega

/-- The cursor stands on a quoted text, on one of its quotes, or right behind it. -/
def QuotedWord.touches (cursor : Nat) (q : QuotedWord) : Bool :=
  decide (q.start ≤ cursor) && decide (cursor ≤ q.stop + 1)

/-- The quoted text at a column; empty quotes do not count. -/
def quotedWordAt? (column : Nat) (line : String) : Option String :=
  let cursor := byteOffset column line.toList
  ((quotedWords 0 line.toList).find? fun q => !q.word.isEmpty && q.touches cursor).map fun q =>
    String.ofList q.word

/-! ## Tags -/

def isIdentifierStart (c : Char) : Bool := c.isAlpha || c == '_'

def isIdentifierChar (c : Char) : Bool := c.isAlphanum || c == '_'

/-- Whether a tag name may follow here: `<` or `</` comes before, perhaps with blanks behind it. -/
def opensTag (before : List Char) : Bool :=
  match (trimEnd before).reverse with
  | '/' :: '<' :: _ => true
  | '<' :: _ => true
  | _ => false

/-- The name of the tag at a column. -/
def tagAt? (column : Nat) (line : String) : Option String :=
  let (before, after) := splitColumn column line.toList
  let lead := (before.reverse.dropWhile isIdentifierChar).reverse
  let word :=
    (before.reverse.takeWhile isIdentifierChar).reverse ++ after.takeWhile isIdentifierChar
  if word.head?.any isIdentifierStart && opensTag lead then some (String.ofList word) else none

/-! ## References to entities -/

/-- The value that a key at the start of a text leaves open: a quote follows, perhaps behind blanks,
and no other quote comes up to the end of the text. -/
def openValue? (key cs : List Char) : Option (List Char) :=
  match (afterPrefix? key cs).map trimStart with
  | some ('"' :: value) => if value.contains '"' then none else some value
  | _ => none

/-- The first value that is left open in a text. The keys are tried in turn at each place, from left
to right. -/
def firstOpenValue? (keys : List (List Char)) : List Char → Option (List Char)
  | [] => none
  | c :: cs => (keys.findSome? (openValue? · (c :: cs))).or (firstOpenValue? keys cs)

/-- The attributes whose values name entities: the identifying attribute and those that refer to
it. -/
structure ReferenceAttributes where
  idAttribute : String
  references : List String

namespace ReferenceAttributes

/-- The attribute names, each with its equals sign. -/
def keys (r : ReferenceAttributes) : List (List Char) :=
  (r.idAttribute :: r.references).map fun a => a.toList ++ ['=']

/-- The quoted text at a column of a line that holds one of the attributes. -/
def referenceAt? (r : ReferenceAttributes) (column : Nat) (line : String) : Option String :=
  if r.keys.any (contains · line.toList) then quotedWordAt? column line else none

/-- The unfinished value at a column: the first one that an attribute leaves open before the
cursor. -/
def completionAt? (r : ReferenceAttributes) (column : Nat) (line : String) : Option String :=
  (firstOpenValue? r.keys (splitColumn column line.toList).1).map String.ofList

end ReferenceAttributes

end BehaviorIndex.Markup
