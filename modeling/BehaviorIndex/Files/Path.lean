/-!
# Paths

A path is kept as it is written. Two paths are the same when their *components* are: repeated and
trailing slashes do not count, nor does a dot, unless it comes first. `..` is a component like any
other. The components `"/"`, `"."` and `".."` are not names.

The paths of files are texts. The system has others as well, which lead to no file here; settings
can hold one (`SystemPath`).
-/

namespace BehaviorIndex

abbrev Path := String

namespace Path

/-- The parts between slashes. -/
def splitSlashes (cs : List Char) : List (List Char) :=
  match cs with
  | [] => [[]]
  | '/' :: cs => [] :: splitSlashes cs
  | c :: cs =>
    match splitSlashes cs with
    | part :: parts => (c :: part) :: parts
    | [] => [[c]]

def isAbsolute (p : Path) : Bool := p.toList.head? == some '/'

/-- The names of a path, with `..`, without the leading slash or dot. -/
def names (p : Path) : List String :=
  ((splitSlashes p.toList).filter fun part => part != [] && part != ['.']).map String.ofList

/-- Whether a dot comes first. -/
def startsWithDot (p : Path) : Bool := (splitSlashes p.toList).head? == some ['.']

def components (p : Path) : List String :=
  if p.isAbsolute then "/" :: p.names
  else if p.startsWithDot then "." :: p.names
  else p.names

/-- A path from its components. -/
def ofComponents : List String → Path
  | "/" :: names => "/" ++ "/".intercalate names
  | names => "/".intercalate names

/-- The way to write a path that is the same for all paths with the same components. -/
def normal (p : Path) : Path := ofComponents p.components

def same (p q : Path) : Bool := p.components == q.components

/-- The last component, if it is a name. -/
def fileName? (p : Path) : Option String :=
  match p.components.getLast? with
  | some c => if c == "/" || c == "." || c == ".." then none else some c
  | none => none

/-- What follows the last dot of the last name. A dot at the start of the name does not count. -/
def extension? (p : Path) : Option String :=
  match p.fileName? with
  | none => none
  | some name =>
    let reversed := name.toList.reverse
    match reversed.dropWhile (· != '.') with
    | [] | [_] => none
    | _ :: _ => some (String.ofList (reversed.takeWhile (· != '.')).reverse)

/-- The last name starts with a dot. -/
def isHidden (p : Path) : Bool := p.fileName?.any fun name => name.toList.head? == some '.'

/-- `q` as seen from the directory `p`. -/
def join (p q : Path) : Path :=
  if q.isAbsolute then q
  else if p.isEmpty || p.toList.getLast? == some '/' then p ++ q
  else p ++ "/" ++ q

/-- The path without its last component; the root and the empty path have no parent. -/
def parent? (p : Path) : Option Path :=
  match p.components with
  | [] | ["/"] => none
  | cs => some (ofComponents cs.dropLast)

/-- A path and those above it, the nearest first. -/
def ancestors (p : Path) : List Path :=
  (List.range p.components.length).reverse.map fun i => ofComponents (p.components.take (i + 1))

end Path

/-- A path as the system has it: any bytes. -/
structure SystemPath where
  bytes : ByteArray

namespace SystemPath

instance : DecidableEq SystemPath := fun p q =>
  decidable_of_decidable_of_iff (p := p.bytes.data = q.bytes.data)
    (by rw [← ByteArray.ext_iff, SystemPath.mk.injEq])

def ofText (p : Path) : SystemPath := ⟨p.toUTF8⟩

def text? (p : SystemPath) : Option Path := String.fromUTF8? p.bytes

def isText (p : SystemPath) : Bool := p.text?.isSome

/-- Where the path leads: nowhere, if it is no text. -/
def toPath (p : SystemPath) : Path := p.text?.getD ""

end SystemPath

end BehaviorIndex
