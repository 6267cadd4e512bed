import BehaviorIndex.Command.Run
import BehaviorIndex.Watch.Changes
import BehaviorIndex.Workspace.Live

/-!
# The program

Commands run on a picture of the disk. It is taken before the command, and what the command changed
in it is written afterwards. To watch a workspace, pictures are taken over and over.
-/

namespace BehaviorIndex

/-- How often a watched workspace is looked at, in milliseconds. -/
def pollMs : Nat := 100

/-- The picture with a file or directory and all that is below it. Links are not followed. -/
partial def picture (d : Disk) (path : String) : IO Disk := do
  let some made := (d.makeDirectories ((Path.parent? path).getD "/")).toOption | return d
  let here ← IO.currentDir
  let target := here / path
  unless ← target.pathExists do return d
  if ← target.isDir then
    let mut d := (made.makeDirectories path).toOption.getD made
    for entry in ← target.readDir do
      let info ← entry.path.symlinkMetadata
      if info.type != .symlink then
        d ← try picture d entry.path.toString catch _ => pure d
    return d
  else
    let content ← IO.FS.readBinFile target
    return (made.write path content).toOption.getD made

/-- The picture with what commands look for in a directory above the workspace. -/
def pictureAbove (d : Disk) (directory : Path) : IO Disk :=
  (Settings.fileIn directory :: Walk.sources.map directory.join).foldlM
    (fun d p => try picture d p catch _ => pure d) d

/-- The variables of the environment, from a text of assignments with a null after each. -/
def variablesOf (text : String) : Settings.Variables :=
  (text.splitOn "\x00").filterMap fun assignment =>
    match assignment.splitOn "=" with
    | name :: value :: more => some (name, "=".intercalate (value :: more))
    | _ => none

def environment : IO Settings.Variables := do
  let bytes ← try IO.FS.readBinFile "/proc/self/environ" catch _ => pure ByteArray.empty
  return variablesOf ((String.fromUTF8? bytes).getD "")

/-- How many CPUs the machine has. -/
def cpuCount : IO UInt64 := do
  let lines ← try IO.FS.lines "/proc/cpuinfo" catch _ => pure #[]
  return (max 1 (lines.filter fun line => line.startsWith "processor").size).toUInt64

/-- Write what is new in a picture. -/
def writeBack (old new : Disk) : IO Unit := do
  for (p, entry) in new.entries.toList do
    match entry with
    | .directory => if (old.at? p).isNone then IO.FS.createDirAll p
    | .file content =>
      if (Watch.changeAt? old new p).isSome then IO.FS.writeBinFile p content

def printOutput (output : Report.Output) : IO Unit := do
  IO.print output.stdout
  IO.eprint output.stderr
  (← IO.getStdout).flush

/-- Keep an index live, for ever. -/
partial def keepLive (w : Workspace) (old : Disk) : IO Unit := do
  IO.sleep pollMs.toUInt32
  let new ← picture { current := old.current } w.root
  let events := (Watch.changes old new).flatMap (Watch.Notice.events w.settings.indexing)
  keepLive ((events.foldl Workspace.handle w).advance new pollMs) new

/-- The picture for a command line: the paths among its arguments, the workspace, and the
directories above. -/
def pictureFor (vars : Settings.Variables) (cpus : UInt64) (args : List String) : IO Disk := do
  let current := (← IO.currentDir).toString
  let start := ((({} : Disk).makeDirectories current).toOption).getD {}
  let mut d : Disk := { start with current }
  for p in Path.ancestors current do
    d ← pictureAbove d p
  let mut roots := (args.filter fun a => !a.isEmpty && a != "-").map (Path.join current)
  for invocation in (Command.parse args).toOption do
    if let .ok (settings, _) := Command.settingsFor ⟨d, vars, cpus⟩ invocation.settingsFile then
      roots := roots ++ [(Workspace.ofSettings d settings).root]
  for root in roots do
    d ← try picture d root catch _ => pure d
    for p in Path.ancestors root do
      d ← pictureAbove d p
  return d

end BehaviorIndex

open BehaviorIndex in
def main (args : List String) : IO UInt32 := do
  let vars ← environment
  let cpus ← cpuCount
  let disk ← pictureFor vars cpus args
  match Command.run ⟨disk, vars, cpus⟩ args with
  | .finished new output =>
    writeBack disk new
    printOutput output
    return output.exitCode.toUInt32
  | .watching w _ output =>
    printOutput output
    keepLive w (← picture { current := disk.current } w.root)
    return 0
