import BehaviorIndex.Markup.Node
import BehaviorIndex.Text.Search

/-!
# Nesting, by eye

How deeply tags are nested in a text that need not be a document: the tags are counted as they
stand, without regard to their names. Comments, sections, instructions and declarations are passed
over, and a `>` inside a quoted value does not end a tag.
-/

namespace BehaviorIndex.Markup

open Text

/-- The text up to the first `>` outside quotes, and what follows that. `quote` is the quote that is
open. -/
def splitTag (quote : Option Char) : List Char → List Char × List Char
  | [] => ([], [])
  | c :: cs =>
    match quote with
    | none =>
      if c == '>' then ([], cs)
      else
        let (tag, rest) := splitTag (if c == '"' || c == '\'' then some c else none) cs
        (c :: tag, rest)
    | some q =>
      let (tag, rest) := splitTag (if c == q then none else some q) cs
      (c :: tag, rest)

theorem length_splitTag_le (quote : Option Char) (cs : List Char) :
    (splitTag quote cs).2.length ≤ cs.length := by
  induction cs generalizing quote with
  | nil => simp [splitTag]
  | cons c cs ih =>
    unfold splitTag
    split
    · split
      · simp
      · have := ih (if c == '"' || c == '\'' then some c else none)
        simp only [List.length_cons]
        omega
    · next q =>
      have := ih (if c == q then none else some q)
      simp only [List.length_cons]
      omega

/-- What ends the passage that begins at `<` and is passed over, if it is one. -/
def terminator? (cs : List Char) : Option (List Char) :=
  if "<!--".toList.isPrefixOf cs then some ['-', '-', '>']
  else if "<![CDATA[".toList.isPrefixOf cs then some [']', ']', '>']
  else if "<?".toList.isPrefixOf cs || "<!".toList.isPrefixOf cs then some ['>']
  else none

theorem ne_nil_of_terminator? {cs t : List Char} (h : terminator? cs = some t) : t ≠ [] := by
  unfold terminator? at h
  split at h
  · cases h; simp
  · split at h
    · cases h; simp
    · split at h
      · cases h; simp
      · simp at h

/-- Whether the nesting goes beyond `limit`, when `depth` elements are open. An end tag without an
open element counts for nothing. -/
def nestsBeyond (limit depth : Nat) (cs : List Char) : Bool :=
  match _h : cs.dropWhile (· != '<') with
  | [] => false
  | lt :: rest =>
    match _ht : terminator? (lt :: rest) with
    | some t => nestsBeyond limit depth (skipPast t (lt :: rest))
    | none =>
      let tag := (splitTag none rest).1
      let after := (splitTag none rest).2
      if tag.head? == some '/' then nestsBeyond limit (depth - 1) after
      else if tag.getLast? == some '/' then nestsBeyond limit depth after
      else if limit ≤ depth then true
      else nestsBeyond limit (depth + 1) after
termination_by cs.length
decreasing_by
  all_goals
    have hd := (List.dropWhile_suffix (l := cs) (· != '<')).length_le
    rw [_h] at hd
  · have : (skipPast t (lt :: rest)).length < (lt :: rest).length :=
      length_skipPast_lt (ne_nil_of_terminator? _ht) (by simp)
    omega
  all_goals
    have := length_splitTag_le none rest
    simp only [List.length_cons] at hd
    omega

end BehaviorIndex.Markup
