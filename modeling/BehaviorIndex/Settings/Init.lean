import BehaviorIndex.Settings.Load
import BehaviorIndex.Text.Lines

/-!
# Starting a workspace

A workspace starts with a settings file that holds the defaults, and an ignore file. What is already
there is overwritten only by force.
-/

namespace BehaviorIndex.Settings

/-- The settings file of a new workspace. -/
def template (threads : Nat) : List String :=
  ["# treesense configuration file",
    "",
    "# Version of the configuration schema",
    "version = 1",
    "",
    "# Log every indexing step",
    "debug = false",
    "",
    "[indexing]",
    "# Maximum number of files read concurrently during the initial scan",
    "# parallel_threads = " ++ toString threads,
    "",
    "# Markup files holding tree definitions",
    "tree_extensions = [\"xml\"]",
    "",
    "# Native sources holding node classes",
    "node_extensions = [\"cpp\", \"h\", \"hpp\"]",
    "",
    "[markup]",
    "# Element that defines an entity and the attribute that names it",
    "entity_tag = \"BehaviorTree\"",
    "id_attribute = \"ID\"",
    "",
    "# Attributes that only reference an entity by name",
    "reference_attributes = [\"main_tree_to_execute\"]",
    "",
    "[native]",
    "# Keyword introducing an indexed declaration",
    "declaration_keyword = \"class\"",
    "",
    "[file_watch]",
    "# Re-index files when they change in watch mode",
    "enabled = true",
    "",
    "# How long to wait after the last change before re-indexing",
    "debounce_ms = 200"]

/-- The ignore file of a new workspace. -/
def ignoreTemplate : List String :=
  ["# treesense ignore patterns (gitignore syntax)",
    "",
    "# Build artifacts",
    "build/",
    "install/",
    "log/",
    "target/",
    "",
    "# Generated files",
    "*.generated.*",
    "",
    "# Version control and editor state",
    ".git/",
    ".vscode/",
    ".idea/"]

inductive InitError where
  | alreadyThere
  | fault (f : Disk.Fault)

def InitError.message : InitError → String
  | alreadyThere => "Configuration file already exists. Use --force to overwrite"
  | fault f => f.message

/-- Start a workspace in a directory, on a machine with some CPUs: the disk as it is then, and the
settings file. -/
def init (cpus : UInt64) (d : Disk) (root : Path) (force : Bool) : Disk × Except InitError Path :=
  let settingsFile := fileIn root
  let ignoreFile := root.join ignoreFileName
  if !force && d.isThere settingsFile then (d, .error .alreadyThere)
  else
    match d.makeDirectories (root.join directoryName) with
    | .error f => (d, .error (.fault f))
    | .ok d =>
      match d.writeText settingsFile (Text.joinLines (template cpus.toNat)) with
      | .error f => (d, .error (.fault f))
      | .ok d =>
        if !force && d.isThere ignoreFile then (d, .ok settingsFile)
        else
          match d.writeText ignoreFile (Text.joinLines ignoreTemplate) with
          | .error f => (d, .error (.fault f))
          | .ok d => (d, .ok settingsFile)

end BehaviorIndex.Settings
