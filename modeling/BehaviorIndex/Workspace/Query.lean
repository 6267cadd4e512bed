import BehaviorIndex.Markup.Entity
import BehaviorIndex.Markup.Outline
import BehaviorIndex.Source.Documentation
import BehaviorIndex.Text.Lines
import BehaviorIndex.Workspace.Basic

/-!
# Queries

What a workspace can tell about its definitions: where they are, how a tree is structured, how a
node is documented, and what stands under a cursor. Outlines and documentation are read from the
file at the time of the query; a file that cannot be read has none.
-/

namespace BehaviorIndex

structure Definition where
  name : String
  kind : Kind
  path : Path
  location : Location

/-- Positions are told from one on. -/
def Definition.text (d : Definition) : String :=
  s!"{d.kind.name} {d.name} at {d.path}:{d.location.line + 1}:{d.location.column + 1}"

/-- The declaration of a node, and what the comment above it says. -/
structure NodeDocumentation where
  signature : String
  sections : Source.Sections

namespace NodeDocumentation

def portLines (title : String) (ports : List String) : List String :=
  ["", title] ++ if ports.isEmpty then ["  None"] else ports.map ("  - " ++ ·)

def lines (n : NodeDocumentation) : List String :=
  [n.signature] ++ (if n.sections.brief.isEmpty then [] else ["", n.sections.brief]) ++
    (if n.sections.description.isEmpty then [] else ["", " ".intercalate n.sections.description]) ++
    portLines "Input Ports" n.sections.inputPorts ++ portLines "Output Ports" n.sections.outputPorts

def text (n : NodeDocumentation) : String := Text.joinLines n.lines

end NodeDocumentation

/-- The children of an entity with one tag. -/
structure ChildSymbol where
  tag : String
  repeated : Bool
  offset : Nat

def ChildSymbol.text (c : ChildSymbol) : String :=
  (if c.repeated then c.tag ++ "[]" else c.tag) ++ " @" ++ toString c.offset

/-- An entity in a file, with its place in the text. -/
structure EntitySymbol where
  name : String
  file : FileId
  range : Markup.TextRange
  children : List ChildSymbol

def EntitySymbol.text (e : EntitySymbol) : String :=
  s!"{e.name} [{e.range.start}..{e.range.stop}]" ++
    String.join (e.children.map fun c => "\n  " ++ c.text)

inductive Hover where
  | tree (name outline : String)
  | node (name : String) (documentation : NodeDocumentation)

def Hover.text : Hover → String
  | tree name outline => s!"Tree {name} structure:\n{outline}"
  | node name documentation => s!"Node {name}\n{documentation.text}"

namespace Workspace

/-! ## Names -/

def lookup (w : Workspace) (kind : Kind) (name : String) : List Location := w.store.lookup kind name

def definitions (w : Workspace) (kind : Kind) (name : String) : List Definition :=
  (w.lookup kind name).filterMap fun location =>
    (w.registry.path? location.file).map fun path => { name, kind, path, location }

def startsWith (start s : String) : Bool := start.toList.isPrefixOf s.toList

/-- The names of a kind that start with a text, in order. -/
def completions (w : Workspace) (kind : Kind) (start : String) : List String :=
  (w.store.names kind).filter (startsWith start)

/-! ## Files -/

/-- The root node of a markup file; `none` if the file cannot be read. -/
def rootOf (d : Disk) (p : Path) : Except IndexError (Option (String × Markup.Node)) :=
  match d.read p with
  | .error _ => .ok none
  | .ok text =>
    match Markup.parse text with
    | .error e => .error (.parse p e)
    | .ok root => .ok (some (text, root))

/-- The outline of a tree that a file defines. -/
def outline (w : Workspace) (d : Disk) (p : Path) (name : String) :
    Except IndexError (Option String) := do
  match ← rootOf d p with
  | none => return none
  | some (_, root) =>
    let markup := w.settings.markup
    return (root.entity? markup.entityTag markup.idAttribute name).map Markup.Node.outline

/-- The outline of a tree, from the first file that defines it. -/
def treeOutline (w : Workspace) (d : Disk) (name : String) : Except IndexError (Option String) :=
  match w.definitions .tree name with
  | [] => .ok none
  | first :: _ => w.outline d first.path name

/-- The documentation of what is declared on a line, counted from zero. -/
def documentation (d : Disk) (p : Path) (line : Nat) : Option NodeDocumentation := do
  let text ← (d.read p).toOption
  let lines := Text.splitLines text.toList
  let declaration ← lines[line]?
  return { signature := String.ofList (Text.trim declaration)
           sections := Source.documentation lines line }

/-- The documentation of a node, from the first file that declares it. -/
def nodeDocumentation (w : Workspace) (d : Disk) (name : String) : Option NodeDocumentation :=
  match w.definitions .node name with
  | [] => none
  | first :: _ => documentation d first.path first.location.line.toNat

/-- The children in a slot, if a tag of their name begins in the text from `start` on. -/
def childSymbol? (text : String) (start : Nat) (slot : Markup.Slot) : Option ChildSymbol :=
  (Markup.tagOffset? slot.tag text start).map fun offset =>
    { tag := slot.tag, offset
      repeated := match slot.child with
        | .list _ => true
        | _ => false }

/-- An entity with its place in the text; `none` if its start tag is written in an unusual way. -/
def entitySymbol? (markup : Settings.Markup) (file : FileId) (text : String) (n : Markup.Node) :
    Option EntitySymbol := do
  let name ← n.attribute? markup.idAttribute
  let range ← Markup.entityRange? markup.entityTag markup.idAttribute name text
  return { name, file, range, children := n.slots.filterMap (childSymbol? text range.start) }

/-- The entities of a markup file. The file gets a number. -/
def entities (w : Workspace) (d : Disk) (p : Path) :
    Workspace × Except IndexError (List EntitySymbol) :=
  match rootOf d p with
  | .error e => (w, .error e)
  | .ok none => (w, .ok [])
  | .ok (some (text, root)) =>
    match w.registry.register (d.canonical p) with
    | (registry, none) => ({ w with registry }, .error .idsExhausted)
    | (registry, some file) =>
      let markup := w.settings.markup
      ({ w with registry },
        .ok ((root.entities markup.entityTag markup.idAttribute).filterMap
          (entitySymbol? markup file text)))

/-! ## Under the cursor -/

def completeAt (w : Workspace) (line : String) (column : Nat) : List String :=
  match w.settings.references.completionAt? column line with
  | some start => w.completions .tree start
  | none => []

def definitionsAt (w : Workspace) (line : String) (column : Nat) : List Definition :=
  match Markup.quotedWordAt? column line with
  | some name => w.definitions .tree name
  | none => []

/-- The tree that is referred to, if its outline can be read; else the node that a tag names. -/
def hoverAt (w : Workspace) (d : Disk) (line : String) (column : Nat) : Option Hover :=
  let tree? := (w.settings.references.referenceAt? column line).bind fun name =>
    match w.treeOutline d name with
    | .ok (some outline) => some (Hover.tree name outline)
    | _ => none
  tree? <|> do
    let tag ← Markup.tagAt? column line
    let documentation ← w.nodeDocumentation d tag
    return .node tag documentation

def hoverInFile (w : Workspace) (d : Disk) (p : Path) (line column : Nat) : Option Hover := do
  let text ← (d.read p).toOption
  let lineText ← (Text.LineIndex.ofText text.toList).lineText? line
  w.hoverAt d (String.ofList lineText) column

end Workspace

end BehaviorIndex
