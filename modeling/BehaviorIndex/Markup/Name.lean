import BehaviorIndex.Text.Search

/-!
# Names and space in markup

The lexical classes of the markup grammar. Space is the four ASCII blanks, which is less than the
blank characters by which texts are trimmed. A *tag name* may begin with any name character; the
other names begin with a letter or an underscore.
-/

namespace BehaviorIndex.Markup

def isSpace (c : Char) : Bool := c == ' ' || c == '\t' || c == '\r' || c == '\n'

def isNameStart (c : Char) : Bool := c.isAlpha || c == '_'

def isNameChar (c : Char) : Bool :=
  c.isAlphanum || c == '_' || c == ':' || c == '.' || c == '-' || c == '·'

/-- What follows optional space. -/
def skipSpace (cs : List Char) : List Char := cs.dropWhile isSpace

/-- What follows space that has to be there. -/
def space? : List Char → Option (List Char)
  | [] => none
  | c :: cs => if isSpace c then some (skipSpace cs) else none

/-- What follows the literal `word`. -/
def literal? (word : String) (cs : List Char) : Option (List Char) :=
  Text.afterPrefix? word.toList cs

/-- A name, and what follows it. -/
def name? : List Char → Option (List Char × List Char)
  | [] => none
  | c :: cs =>
    if isNameStart c then some (c :: cs.takeWhile isNameChar, cs.dropWhile isNameChar) else none

/-- A tag name, and what follows it. -/
def tagName? : List Char → Option (List Char × List Char)
  | [] => none
  | c :: cs =>
    if isNameChar c then some (c :: cs.takeWhile isNameChar, cs.dropWhile isNameChar) else none

/-! ## What is left is shorter -/

theorem length_dropWhile_le {α : Type} (p : α → Bool) (xs : List α) :
    (xs.dropWhile p).length ≤ xs.length :=
  (List.dropWhile_suffix p).length_le

theorem length_skipSpace_le (cs : List Char) : (skipSpace cs).length ≤ cs.length :=
  length_dropWhile_le _ _

theorem length_of_space? {cs rest : List Char} (h : space? cs = some rest) :
    rest.length < cs.length := by
  match cs with
  | [] => simp [space?] at h
  | c :: cs =>
    simp only [space?] at h
    split at h
    · cases h
      have := length_skipSpace_le cs
      simp only [List.length_cons]
      omega
    · simp at h

theorem length_of_literal? {word : String} {cs rest : List Char}
    (h : literal? word cs = some rest) :
    cs.length = word.toList.length + rest.length :=
  Text.length_of_afterPrefix? h

theorem length_of_name? {cs name rest : List Char} (h : name? cs = some (name, rest)) :
    rest.length < cs.length := by
  match cs with
  | [] => simp [name?] at h
  | c :: cs =>
    simp only [name?] at h
    split at h
    · cases h
      have := length_dropWhile_le isNameChar cs
      simp only [List.length_cons]
      omega
    · simp at h

theorem length_of_tagName? {cs name rest : List Char} (h : tagName? cs = some (name, rest)) :
    rest.length < cs.length := by
  match cs with
  | [] => simp [tagName?] at h
  | c :: cs =>
    simp only [tagName?] at h
    split at h
    · cases h
      have := length_dropWhile_le isNameChar cs
      simp only [List.length_cons]
      omega
    · simp at h

end BehaviorIndex.Markup
