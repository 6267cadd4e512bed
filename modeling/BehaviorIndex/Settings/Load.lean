import BehaviorIndex.Files.Disk
import BehaviorIndex.Settings.Decode
import BehaviorIndex.Settings.Environment
import BehaviorIndex.Toml.Document
import BehaviorIndex.Toml.Writer

/-!
# Loading and saving settings

Settings come in three layers: the defaults, a file, and the environment. A file that is not there
counts as empty. The root of a workspace is the nearest directory, from the current one upward, that
holds the settings directory.
-/

namespace BehaviorIndex.Settings

open Data (Entries)

inductive LoadError where
  /-- The settings file is not well written. -/
  | malformed
  | misfit (e : DecodeError)

/-! ## Loading -/

/-- The file that a path names: a relative path is looked for in the current directory and in those
above it. -/
def locateFile? (d : Disk) (p : Path) : Option Path :=
  if p.isAbsolute then if d.isFile p then some p else none
  else (d.current.ancestors.map (·.join p)).find? d.isFile

/-- The entries of a settings file. -/
def fileEntries (d : Disk) (p : Path) : Except LoadError Entries :=
  match locateFile? d p with
  | none => .ok []
  | some p =>
    match (d.read p).toOption.bind Toml.parse? with
    | some es => .ok es
    | none => .error .malformed

/-- The layers on top of one another. -/
def layered (cpus : UInt64) (file environment : Entries) : Entries :=
  Data.mergeEntries (Data.mergeEntries (toEntries (defaults cpus)) file) environment

/-- The settings of a file and the environment, on a machine with some CPUs. -/
def loadFrom (cpus : UInt64) (d : Disk) (vars : Variables) (p : Path) :
    Except LoadError Settings :=
  match fileEntries d p with
  | .error e => .error e
  | .ok file =>
    match ofEntries cpus (layered cpus file (environmentEntries vars)) with
    | .error e => .error (.misfit e)
    | .ok s => .ok s

/-- The settings file of a workspace. -/
def fileIn (root : Path) : Path := (root.join directoryName).join fileName

/-- The root of the workspace around the current directory. -/
def findRoot? (d : Disk) : Option Path :=
  d.current.ancestors.find? fun p => d.isDirectory (p.join directoryName)

/-- The settings of the workspace around the current directory. -/
def load (cpus : UInt64) (d : Disk) (vars : Variables) : Except LoadError Settings :=
  let root? := findRoot? d
  let file := match root? with
    | some root => fileIn root
    | none => directoryName ++ "/" ++ fileName
  match loadFrom cpus d vars file with
  | .error e => .error e
  | .ok s => .ok { s with workspaceRoot := s.workspaceRoot <|> root?.map .ofText }

/-! ## Saving -/

inductive SaveError where
  /-- There is no directory to write to. -/
  | invalidPath
  /-- The root is no text. -/
  | notText
  /-- A number is too large to be written. -/
  | tooLarge
  | fault (f : Disk.Fault)

def SaveError.message : SaveError → String
  | invalidPath => "Invalid path"
  | notText => "path contains invalid UTF-8 characters"
  | tooLarge => "out-of-range value for u64 type"
  | fault f => f.message

/-- Settings as a document. -/
def render (s : Settings) : Except SaveError String :=
  if !s.hasTextRoot then .error .notText
  else if Toml.entriesWritable s.toEntries then .ok (Toml.render s.toEntries)
  else .error .tooLarge

/-- Write settings to a file, in directories that are made as needed. -/
def save (d : Disk) (s : Settings) (p : Path) : Except SaveError Disk :=
  match p.parent? with
  | none => .error .invalidPath
  | some parent =>
    match d.makeDirectories parent with
    | .error f => .error (.fault f)
    | .ok d =>
      match s.render with
      | .error e => .error e
      | .ok text =>
        match d.writeText p text with
        | .error f => .error (.fault f)
        | .ok d => .ok d

end BehaviorIndex.Settings
