import BehaviorIndex.Data.Value
import BehaviorIndex.Settings.Basic

/-!
# Settings and values

`toEntries` gives settings as values, and `ofEntries` reads them back. Each setting expects values
of one type. Keys are read in ascending order, and the first value that does not fit is reported
with the keys that lead to it. Keys that name no setting do not count. A section may also be written
as a list: its settings in order, with the rest left at their defaults. A root that is no text has
no value.
-/

namespace BehaviorIndex.Settings

open Data (Value Entries)

/-! ## As values -/

def texts (ss : List String) : Value := .list (ss.map .text)

def Indexing.toEntries (i : Indexing) : Entries :=
  [("parallel_threads", .nat i.parallelThreads), ("tree_extensions", texts i.treeExtensions),
    ("node_extensions", texts i.nodeExtensions)]

def Markup.toEntries (m : Markup) : Entries :=
  [("entity_tag", .text m.entityTag), ("id_attribute", .text m.idAttribute),
    ("reference_attributes", texts m.referenceAttributes)]

def Native.toEntries (n : Native) : Entries :=
  [("declaration_keyword", .text n.declarationKeyword)]

def FileWatch.toEntries (w : FileWatch) : Entries :=
  [("enabled", .bool w.enabled), ("debounce_ms", .nat w.debounceMs)]

/-- The root, if there is one, is a text. -/
def hasTextRoot (s : Settings) : Bool := s.workspaceRoot.all SystemPath.isText

/-- All settings, as they are written to a file. -/
def toEntries (s : Settings) : Entries :=
  [("version", .nat s.version)] ++
    ((s.workspaceRoot.bind SystemPath.text?).map fun p => ("workspace_root", .text p)).toList ++
    [("debug", .bool s.debug), ("indexing", .table s.indexing.toEntries),
      ("markup", .table s.markup.toEntries), ("native", .table s.native.toEntries),
      ("file_watch", .table s.fileWatch.toEntries)]

/-! ## From values -/

inductive Misfit where
  /-- A value of another type. -/
  | type (found : Value) (expected : String)
  /-- A number out of range. -/
  | range (found : Value) (expected : String)

def Misfit.message : Misfit → String
  | type found expected => "invalid type: found " ++ found.description ++ ", expected " ++ expected
  | range found expected => "invalid value " ++ found.description ++ ", expected " ++ expected

/-- A value that does not fit, and the keys that lead to it. -/
structure DecodeError where
  misfit : Misfit
  keys : List String

abbrev Decoded := Except DecodeError

/-- What a value decodes to under a key, or behind an index. -/
def under (key : String) : Decoded α → Decoded α
  | .ok a => .ok a
  | .error e => .error { e with keys := key :: e.keys }

def misfit (m : Misfit) : Decoded α := .error ⟨m, []⟩

def decodeNat (bound : Nat) (expected : String) : Value → Decoded Nat
  | .nat n => if n < bound then .ok n else misfit (.range (.nat n) expected)
  | .int n => if 0 ≤ n ∧ n < bound then .ok n.toNat else misfit (.range (.int n) expected)
  | v => misfit (.type v expected)

def decodeBool : Value → Decoded Bool
  | .bool b => .ok b
  | v => misfit (.type v "a boolean")

def decodeText (expected : String) : Value → Decoded String
  | .text s => .ok s
  | v => misfit (.type v expected)

/-- The items of a list from an index on. -/
def decodeItems (index : Nat) : List Value → Decoded (List String)
  | [] => .ok []
  | v :: vs => do
    let s ← under (toString index) (decodeText "a string" v)
    return s :: (← decodeItems (index + 1) vs)

def decodeTexts : Value → Decoded (List String)
  | .list vs => decodeItems 0 vs
  | v => misfit (.type v "a sequence")

/-- The value of a setting, or its default. -/
def decodeOr (decode : Value → Decoded α) (default : α) (key : String) :
    Option Value → Decoded α
  | some v => under key (decode v)
  | none => .ok default

def decodeKey (es : Entries) (decode : Value → Decoded α) (default : α) (key : String) :
    Decoded α :=
  decodeOr decode default key (es.get? key)

def decodeIndex (vs : List Value) (decode : Value → Decoded α) (default : α) (index : Nat) :
    Decoded α :=
  decodeOr decode default (toString index) vs[index]?

/-- How the settings of a section are found: by key in a table, by index in a list. The section
decodes them in the order in which they stand. -/
def decodeSection (name : String) (byKey : Entries → Decoded α) (byIndex : List Value → Decoded α) :
    Value → Decoded α
  | .table es => byKey es
  | .list vs => byIndex vs
  | v => misfit (.type v ("struct " ++ name))

def decodeSize : Value → Decoded Nat := decodeNat UInt64.size "usize"

def Indexing.decode (cpus : UInt64) : Value → Decoded Indexing :=
  let d := defaults cpus
  decodeSection "IndexingConfig"
    (fun es => do
      let nodeExtensions ← decodeKey es decodeTexts d.nodeExtensions "node_extensions"
      let parallelThreads ← decodeKey es decodeSize d.parallelThreads "parallel_threads"
      let treeExtensions ← decodeKey es decodeTexts d.treeExtensions "tree_extensions"
      return { parallelThreads, treeExtensions, nodeExtensions })
    (fun vs => do
      let parallelThreads ← decodeIndex vs decodeSize d.parallelThreads 0
      let treeExtensions ← decodeIndex vs decodeTexts d.treeExtensions 1
      let nodeExtensions ← decodeIndex vs decodeTexts d.nodeExtensions 2
      return { parallelThreads, treeExtensions, nodeExtensions })

def Markup.decode : Value → Decoded Markup :=
  let d : Markup := {}
  let text := decodeText "a string"
  decodeSection "MarkupConfig"
    (fun es => do
      let entityTag ← decodeKey es text d.entityTag "entity_tag"
      let idAttribute ← decodeKey es text d.idAttribute "id_attribute"
      let referenceAttributes ←
        decodeKey es decodeTexts d.referenceAttributes "reference_attributes"
      return { entityTag, idAttribute, referenceAttributes })
    (fun vs => do
      let entityTag ← decodeIndex vs text d.entityTag 0
      let idAttribute ← decodeIndex vs text d.idAttribute 1
      let referenceAttributes ← decodeIndex vs decodeTexts d.referenceAttributes 2
      return { entityTag, idAttribute, referenceAttributes })

def Native.decode : Value → Decoded Native :=
  let d : Native := {}
  let text := decodeText "a string"
  decodeSection "NativeConfig"
    (fun es => do
      return ⟨← decodeKey es text d.declarationKeyword "declaration_keyword"⟩)
    (fun vs => do return ⟨← decodeIndex vs text d.declarationKeyword 0⟩)

def FileWatch.decode : Value → Decoded FileWatch :=
  let d : FileWatch := {}
  let count := decodeNat UInt64.size "u64"
  decodeSection "FileWatchConfig"
    (fun es => do
      let debounceMs ← decodeKey es count d.debounceMs "debounce_ms"
      let enabled ← decodeKey es decodeBool d.enabled "enabled"
      return { enabled, debounceMs })
    (fun vs => do
      let enabled ← decodeIndex vs decodeBool d.enabled 0
      let debounceMs ← decodeIndex vs count d.debounceMs 1
      return { enabled, debounceMs })

def decodePath? (v : Value) : Decoded (Option SystemPath) :=
  (decodeText "path string" v).map fun p => some (.ofText p)

/-- The settings that some entries give, on a machine with some CPUs. -/
def ofEntries (cpus : UInt64) (es : Entries) : Decoded Settings := do
  let d := defaults cpus
  let debug ← decodeKey es decodeBool d.debug "debug"
  let fileWatch ← decodeKey es FileWatch.decode d.fileWatch "file_watch"
  let indexing ← decodeKey es (Indexing.decode cpus) d.indexing "indexing"
  let markup ← decodeKey es Markup.decode d.markup "markup"
  let native ← decodeKey es Native.decode d.native "native"
  let version ← decodeKey es (decodeNat UInt32.size "u32") d.version "version"
  let workspaceRoot ← decodeKey es decodePath? d.workspaceRoot "workspace_root"
  return { version, workspaceRoot, debug, indexing, markup, native, fileWatch }

end BehaviorIndex.Settings
