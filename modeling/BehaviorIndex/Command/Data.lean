import BehaviorIndex.Data.Value
import BehaviorIndex.Report.Json
import BehaviorIndex.Workspace.Query

/-!
# Results as JSON
-/

namespace BehaviorIndex

open Report (Json)

def Location.toJson (l : Location) : Json :=
  .obj [("file_id", .ofNat l.file.value.toNat), ("line", .ofNat l.line.toNat),
    ("column", .ofNat l.column.toNat)]

def Definition.toJson (d : Definition) : Json :=
  .obj [("name", .str d.name), ("kind", .str d.kind.name), ("path", .str d.path),
    ("location", d.location.toJson)]

def Source.Sections.toJson (s : Source.Sections) : Json :=
  .obj [("brief", .str s.brief), ("description", .strings s.description),
    ("input_ports", .strings s.inputPorts), ("output_ports", .strings s.outputPorts)]

def NodeDocumentation.toJson (n : NodeDocumentation) : Json :=
  .obj [("signature", .str n.signature), ("sections", n.sections.toJson)]

def ChildSymbol.toJson (c : ChildSymbol) : Json :=
  .obj [("tag", .str c.tag), ("repeated", .bool c.repeated), ("offset", .ofNat c.offset)]

def EntitySymbol.toJson (e : EntitySymbol) : Json :=
  .obj [("name", .str e.name),
    ("span", .obj [("file_id", .ofNat e.file.value.toNat), ("start", .ofNat e.range.start),
      ("end", .ofNat e.range.stop)]),
    ("children", .arr (e.children.map ChildSymbol.toJson))]

def Hover.toJson : Hover → Json
  | tree name outline =>
    .obj [("kind", .str "tree"), ("name", .str name), ("outline", .str outline)]
  | node name documentation =>
    .obj [("kind", .str "node"), ("name", .str name), ("documentation", documentation.toJson)]

/-- Statistics, with the keys in ascending order. -/
def Statistics.toJson (s : Statistics) : Json :=
  .obj [("errors", .arr (s.errors.map fun (path, message) => .strings [path, message])),
    ("files_failed", .ofNat s.filesFailed), ("files_indexed", .ofNat s.filesIndexed),
    ("nodes_found", .ofNat s.nodesFound), ("trees_found", .ofNat s.treesFound)]

/-- Put a member in its place among members whose keys are in ascending order. -/
def insertMember (key : String) (j : Json) : List (String × Json) → List (String × Json)
  | [] => [(key, j)]
  | (k, old) :: ms =>
    if key < k then (key, j) :: (k, old) :: ms else (k, old) :: insertMember key j ms

mutual

/-- A value, with the keys of its tables in ascending order. -/
def Data.Value.toJson : Data.Value → Json
  | .text s => .str s
  | .int n => .int n
  | .nat n => .ofNat n
  | .float x => .float x
  | .bool b => .bool b
  | .list vs => .arr (valuesJson vs)
  | .table es => .obj (membersJson es)

def valuesJson : List Data.Value → List Json
  | [] => []
  | v :: vs => v.toJson :: valuesJson vs

def membersJson : List (String × Data.Value) → List (String × Json)
  | [] => []
  | (key, v) :: es => insertMember key v.toJson (membersJson es)

end

end BehaviorIndex
