import BehaviorIndex.Markup.Element
import BehaviorIndex.Markup.Token

/-!
# Reading an element

The tokens of an element's content are gathered in *frames*, one for each open element. An end tag
closes the innermost frame.

**The memory for open tags.** End tags are compared with what is remembered of the names of the open
elements, and that memory is small: `capacity` bytes, of which `reserved` are taken from the start,
and each name takes one byte more than its length, which is cut to `longest` bytes. A name that
does not fit is forgotten (`remember`), and an element whose name is forgotten cannot be closed by
an end tag. So an end tag can differ from the name of its element only where the name was cut.
-/

namespace BehaviorIndex.Markup

/-! ## The memory for open tags -/

def capacity : Nat := 1024

def reserved : Nat := 8

def longest : Nat := 255

/-- What is remembered of a name when `used` bytes are taken. -/
def remember (used : Nat) (name : List Char) : List Char :=
  if capacity ≤ used + 2 + min name.length longest then [] else name.take longest

/-! ## Frames -/

/-- An open element. `items` holds what was read of its content, the last item first; `used` counts
the memory taken by the names of this and the outer elements. -/
structure Frame where
  tag : List Char
  attributes : Attributes
  items : List Item
  remembered : List Char
  used : Nat

namespace Frame

/-- The frame of a start tag, inside elements whose names take `used` bytes. -/
def ofStart (used : Nat) (t : StartTag) : Frame :=
  let name := remember used t.tag
  ⟨t.tag, t.attributes, [], name, used + 1 + name.length⟩

def add (f : Frame) (item : Item) : Frame := { f with items := item :: f.items }

/-- An end tag of this name closes the frame. -/
def closedBy (f : Frame) (name : List Char) : Bool := !name.isEmpty && name == f.remembered

/-- The element of a closed frame. -/
def toElement (f : Frame) (stray : Option StrayEnd) : Element :=
  .mk (String.ofList f.tag) f.attributes f.items.reverse stray

end Frame

/-- The element of a tag that ends in `/>`. -/
def StartTag.toElement (t : StartTag) : Element := .mk (String.ofList t.tag) t.attributes [] none

/-- The line, counted from one, at which `rest` begins in a text with `lineEnds` line ends. -/
def lineOf (lineEnds : Nat) (rest : List Char) : Nat := lineEnds - rest.count '\n' + 1

/-- The end tag `name`, at the start of `here`, of an element called `tag`, if the names differ. -/
def strayEnd? (lineEnds : Nat) (tag name here : List Char) : Option StrayEnd :=
  if name = tag then none else some ⟨String.ofList name, lineOf lineEnds here⟩

/-! ## Reading -/

/-- Reads on inside the frame `top`, to the end of the outermost element: that element, and what
follows it. -/
def readContent? (lineEnds : Nat) (top : Frame) (outer : List Frame) (cs : List Char) :
    Option (Element × List Char) :=
  match _h : token? cs with
  | none => none
  | some (.text t, rest) => readContent? lineEnds (top.add (.text (String.ofList t))) outer rest
  | some (.silent, rest) => readContent? lineEnds top outer rest
  | some (.start t, rest) =>
    if t.selfClosing then readContent? lineEnds (top.add (.element t.toElement)) outer rest
    else readContent? lineEnds (Frame.ofStart top.used t) (top :: outer) rest
  | some (.close name, rest) =>
    if top.closedBy name then
      let e := top.toElement (strayEnd? lineEnds top.tag name cs)
      match outer with
      | [] => some (e, rest)
      | f :: outer => readContent? lineEnds (f.add (.element e)) outer rest
    else none
termination_by cs.length
decreasing_by all_goals exact length_of_token? _h

/-- The element at the start of a text with `lineEnds` line ends up to its end, and what follows
it. -/
def element? (lineEnds : Nat) : List Char → Option (Element × List Char)
  | '<' :: cs =>
    match startTag? cs with
    | none => none
    | some (t, rest) =>
      if t.selfClosing then some (t.toElement, rest)
      else readContent? lineEnds (Frame.ofStart reserved t) [] rest
  | _ => none

end BehaviorIndex.Markup
