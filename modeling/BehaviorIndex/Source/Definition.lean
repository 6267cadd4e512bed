import BehaviorIndex.Index.Location
import BehaviorIndex.Text.Blank
import BehaviorIndex.Text.Lines
import BehaviorIndex.Text.Search
import BehaviorIndex.Text.Word

/-!
# Definitions in a text

Definitions are found by their look, wherever they stand, comments and strings included.

* A *tree* is `<`, the entity tag, blanks, the identifying attribute, `=`, and a name between
  quotes. The quotes need not be of the same kind, and the name holds none of either kind.
* A *node* is, at a word boundary, the declaration keyword, blanks, and an identifier: a letter or
  underscore of ASCII and the word characters behind it.

`Patterns.scan` lists the definitions from left to right. Each is as long as can be, and the next is
looked for behind it.
-/

namespace BehaviorIndex.Source

open Text

/-- What definitions look like. -/
structure Patterns where
  entityTag : String
  idAttribute : String
  keyword : String

def isQuote (c : Char) : Bool := c == '"' || c == '\''

def isIdentifierStart (c : Char) : Bool := c.isAlpha || c == '_'

/-- What `k` finds behind a non-empty run of blanks, the longest run coming first. -/
def afterBlanks? {α : Type} (k : List Char → Option α) : List Char → Option α
  | [] => none
  | c :: cs => if isBlank c then (afterBlanks? k cs).or (k cs) else none

/-- A name between quotes, and what follows the second quote. -/
def quotedName? : List Char → Option (List Char × List Char)
  | [] => none
  | q :: cs =>
    if isQuote q then
      match cs.takeWhile (!isQuote ·), cs.dropWhile (!isQuote ·) with
      | [], _ => none
      | name, _ :: rest => some (name, rest)
      | _, [] => none
    else none

/-- An identifier, and what follows it. -/
def identifier? : List Char → Option (List Char × List Char)
  | [] => none
  | c :: cs =>
    if isIdentifierStart c then some (c :: cs.takeWhile isWord, cs.dropWhile isWord) else none

theorem length_of_afterBlanks? {k : List Char → Option (List Char × List Char)}
    (hk : ∀ cs name rest, k cs = some (name, rest) → rest.length ≤ cs.length)
    {cs name rest : List Char} (h : afterBlanks? k cs = some (name, rest)) :
    rest.length < cs.length := by
  induction cs with
  | nil => simp [afterBlanks?] at h
  | cons c cs ih =>
    simp only [afterBlanks?] at h
    split at h
    · rw [Option.or_eq_some_iff] at h
      rcases h with h | ⟨-, h⟩
      · have := ih h
        simp only [List.length_cons]
        omega
      · have := hk _ _ _ h
        simp only [List.length_cons]
        omega
    · simp at h

theorem length_of_quotedName? {cs name rest : List Char} (h : quotedName? cs = some (name, rest)) :
    rest.length ≤ cs.length := by
  match cs with
  | [] => simp [quotedName?] at h
  | q :: cs =>
    simp only [quotedName?] at h
    have := (List.dropWhile_suffix (l := cs) (!isQuote ·)).length_le
    split at h
    · split at h
      · simp at h
      · next hd _ =>
        cases h
        rw [hd, List.length_cons] at this
        simp only [List.length_cons]
        omega
      · simp at h
    · simp at h

theorem length_of_identifier? {cs name rest : List Char}
    (h : identifier? cs = some (name, rest)) : rest.length ≤ cs.length := by
  match cs with
  | [] => simp [identifier?] at h
  | c :: cs =>
    simp only [identifier?] at h
    have := (List.dropWhile_suffix (l := cs) isWord).length_le
    split at h
    · cases h
      simp only [List.length_cons]
      omega
    · simp at h

namespace Patterns

/-- The name of the definition at the start of a text, and what follows the definition. `before` is
the character in front of the text. -/
def match? (p : Patterns) (kind : Kind) (before : Option Char) (cs : List Char) :
    Option (List Char × List Char) :=
  match kind with
  | .tree =>
    (afterPrefix? ('<' :: p.entityTag.toList) cs).bind
      (afterBlanks? fun cs => (afterPrefix? (p.idAttribute.toList ++ ['=']) cs).bind quotedName?)
  | .node =>
    if isWordBoundary before cs.head? then
      (afterPrefix? p.keyword.toList cs).bind (afterBlanks? identifier?)
    else none

theorem length_of_match? {p : Patterns} {kind : Kind} {before : Option Char}
    {cs name rest : List Char} (h : p.match? kind before cs = some (name, rest)) :
    rest.length < cs.length := by
  cases kind with
  | tree =>
    simp only [match?, Option.bind_eq_some_iff] at h
    obtain ⟨r, hr, h⟩ := h
    have h₁ := length_of_afterPrefix? hr
    have h₂ := length_of_afterBlanks? (fun cs name rest hk => by
      simp only [Option.bind_eq_some_iff] at hk
      obtain ⟨r, hr, hk⟩ := hk
      have := length_of_afterPrefix? hr
      have := length_of_quotedName? hk
      omega) h
    omega
  | node =>
    simp only [match?] at h
    split at h
    · simp only [Option.bind_eq_some_iff] at h
      obtain ⟨r, hr, h⟩ := h
      have h₁ := length_of_afterPrefix? hr
      have h₂ := length_of_afterBlanks? (fun _ _ _ => length_of_identifier?) h
      omega
    · simp at h

/-- The definitions of a text that begins at `offset` behind the character `before`: names, and the
offsets at which the definitions begin. -/
def scanFrom (p : Patterns) (kind : Kind) (before : Option Char) (offset : Nat) (cs : List Char) :
    List (String × Nat) :=
  match cs with
  | [] => []
  | c :: cs =>
    match _h : p.match? kind before (c :: cs) with
    | some (name, rest) =>
      let matched := (c :: cs).take ((c :: cs).length - rest.length)
      (String.ofList name, offset) ::
        p.scanFrom kind matched.getLast? (offset + byteSize matched) rest
    | none => p.scanFrom kind (some c) (offset + c.utf8Size) cs
termination_by cs.length
decreasing_by
  · exact length_of_match? _h
  · simp

/-- The definitions of a text, with byte offsets. -/
def scan (p : Patterns) (kind : Kind) (text : String) : List (String × Nat) :=
  p.scanFrom kind none 0 text.toList

/-- The definitions of a file's text, with their locations. -/
def locate (p : Patterns) (file : FileId) (kind : Kind) (text : String) :
    List (String × Location) :=
  let lines := LineIndex.ofText text.toList
  (p.scan kind text).map fun (name, offset) =>
    let (line, column) := lines.position offset
    (name, ⟨file, line, column⟩)

end Patterns

end BehaviorIndex.Source
