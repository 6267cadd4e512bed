import BehaviorIndex.Text.Measure

/-!
# Lines

Positions in a text: a line and a column, both counted from zero, the column in UTF-16 units, and
both of 32 bits. A line feed ends a line. `LineIndex` keeps the offsets at which lines begin and
turns offsets into positions. `splitLines` lists the lines of a text without the empty one behind a
last line feed.
-/

namespace BehaviorIndex.Text

/-- The offsets, in a text that starts at `offset`, right behind each line feed. -/
def lineStarts (offset : Nat) : List Char → List Nat
  | [] => []
  | c :: cs =>
    let next := offset + c.utf8Size
    if c = '\n' then next :: lineStarts next cs else lineStarts next cs

structure LineIndex where
  text : List Char
  starts : List Nat

namespace LineIndex

def ofText (text : List Char) : LineIndex := ⟨text, 0 :: lineStarts 0 text⟩

/-- The line that holds an offset: the last one that begins at or before it. -/
def lineOf (i : LineIndex) (offset : Nat) : Nat := i.starts.countP (decide <| · ≤ offset) - 1

/-- The line of an offset, and how many units stand before the offset on that line. An offset inside
a character counts as that of the character, and one beyond the text as its end. -/
def counts (i : LineIndex) (offset : Nat) : Nat × Nat :=
  let line := i.lineOf offset
  let start := i.starts.getD line 0
  (line, units (takeBytes (offset - start) (dropBytes start i.text)))

/-- Line and column of an offset. Of each number, the lowest 32 bits are kept. -/
def position (i : LineIndex) (offset : Nat) : UInt32 × UInt32 :=
  let (line, column) := i.counts offset
  (line.toUInt32, column.toUInt32)

/-- The characters of a line without the line feed and the carriage returns before it. -/
def lineText? (i : LineIndex) (line : Nat) : Option (List Char) :=
  i.starts[line]?.map fun start =>
    let stop := i.starts.getD (line + 1) (byteSize i.text)
    let chars := takeBytes (stop - start) (dropBytes start i.text)
    ((chars.reverse.dropWhile (· == '\n')).dropWhile (· == '\r')).reverse

end LineIndex

/-- A line without the carriage return that may end it. -/
def stripReturn (line : List Char) : List Char :=
  match line.reverse with
  | '\r' :: cs => cs.reverse
  | _ => line

/-- The lines of a text, each without its line feed and one carriage return before that. A last
line without a line feed keeps its carriage return. -/
def splitLines (text : List Char) : List (List Char) :=
  match text with
  | [] => []
  | c :: cs =>
    match _h : (c :: cs).dropWhile (· != '\n') with
    | [] => [c :: cs]
    | _ :: rest => stripReturn ((c :: cs).takeWhile (· != '\n')) :: splitLines rest
termination_by text.length
decreasing_by
  have := (List.dropWhile_suffix (l := c :: cs) (· != '\n')).length_le
  rw [_h, List.length_cons] at this
  omega

/-- The text of some lines, each ended by a line feed. -/
def joinLines (lines : List String) : String := String.join (lines.map (· ++ "\n"))

end BehaviorIndex.Text
