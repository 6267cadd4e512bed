import BehaviorIndex.Command.Data
import BehaviorIndex.Command.Invocation
import BehaviorIndex.Settings.Init
import BehaviorIndex.Watch.Watcher

/-!
# Running commands

A command reads the disk, may change it, and prints its output. Settings that cannot be loaded end
the command if their file was named, else the defaults are used. Only `watch` goes on after its
output.
-/

namespace BehaviorIndex.Command

open Report (Format Output ExitCode)
open Text (joinLines)

/-- Where commands are run. -/
structure Environment where
  disk : Disk
  vars : Settings.Variables := []
  cpus : UInt64

/-- How a command ends. -/
inductive Outcome where
  | finished (disk : Disk) (output : Output)
  /-- The index is kept live from now on. -/
  | watching (workspace : Workspace) (watcher : Watch.Watcher) (output : Output)

/-! ## Texts -/

def version : String := "treesense 0.3.0"

def usage : List String :=
  ["Usage: treesense [OPTIONS] <COMMAND>", "",
    "Commands: init, config, index, find, outline, doc, symbols, complete, hover, watch", "",
    "Options:", "  -c, --config <CONFIG>  Path to custom settings.toml file",
    "      --json             Emit JSON instead of text", "  -h, --help             Print help",
    "  -V, --version          Print version"]

def usageOutput : Usage → Output
  | .help => { stdout := joinLines usage }
  | .version => { stdout := joinLines [version] }
  | .misuse =>
    { stderr := joinLines ("error: unexpected arguments" :: "" :: usage)
      exitCode := ExitCode.blockingError.value }

/-- An error that says nothing more to scripts. -/
def failure (message : String) : Output :=
  { stderr := joinLines ["Error: " ++ message], exitCode := ExitCode.generalError.value }

def loadErrorText : Settings.LoadError → String
  | .malformed => "TOML parse error"
  | .misfit e =>
    e.misfit.message ++ " for key " ++ Text.quoted (".".intercalate ("default" :: e.keys))

/-! ## Commands -/

/-- The settings for a command, with what is said about them; or why there are none. -/
def settingsFor (env : Environment) : Option Path → Except Output (Settings × Output)
  | some p =>
    match Settings.loadFrom env.cpus env.disk env.vars p with
    | .ok s => .ok (s, {})
    | .error e =>
      .error (failure ("Configuration error loading from " ++ p ++ ": " ++ loadErrorText e))
  | none =>
    match Settings.load env.cpus env.disk env.vars with
    | .ok s => .ok (s, {})
    | .error e =>
      let remark := ["Configuration error: " ++ loadErrorText e, "Using default configuration."]
      .ok (.defaults env.cpus, { stderr := joinLines remark })

def workspaceAt (d : Disk) (settings : Settings) : Option Path → Workspace
  | some root => .new d settings root
  | none => .ofSettings d settings

/-- The workspace with everything indexed. -/
def indexed (d : Disk) (settings : Settings) (root : Option Path) : Workspace :=
  ((workspaceAt d settings root).indexAll d).1

def configOutput (format : Format) (settings : Settings) : Output :=
  match format with
  | .json =>
    if settings.hasTextRoot then .success format [] (Data.Value.table settings.toEntries).toJson
    else failure Settings.SaveError.notText.message
  | .text =>
    let head := ["Current Configuration:", "".pushn '=' 50]
    match settings.render with
    | .ok text => { stdout := joinLines (head ++ [text]) }
    | .error e => Output.andThen { stdout := joinLines head } (failure e.message)

def initOutput (format : Format) : Except Settings.InitError Path → Output
  | .ok p =>
    Output.andThen (.info format ("Created configuration file at: " ++ p))
      (.info format "Edit this file to customize your settings.")
  | .error e =>
    { stderr := joinLines ["Error: " ++ e.message], exitCode := ExitCode.settingsError.value }

def indexOutput (d : Disk) (format : Format) (settings : Settings) (root : Option Path)
    (dryRun : Bool) : Output :=
  let w := workspaceAt d settings root
  if dryRun then
    let files := Walk.walk d settings.indexing w.root
    let text := fun ((p, kind) : Path × Kind) => kind.name ++ "\t" ++ p
    Output.andThen (.info format (toString files.length ++ " file(s) would be indexed"))
      (.collection format text (fun file => .str (text file)) "File" "any" files)
  else
    let stats := (w.indexAll d).2
    .success format stats.report stats.toJson

def orError (format : Format) (f : α → Output) : Except IndexError α → Output
  | .ok a => f a
  | .error e => .error format e

/-- The output of a command that only asks. -/
def answer (d : Disk) (format : Format) (settings : Settings) : Command → Output
  | .config => configOutput format settings
  | .index root threads dryRun =>
    let indexing := { settings.indexing with
      parallelThreads := threads.getD settings.indexing.parallelThreads }
    indexOutput d format { settings with indexing } root dryRun
  | .find kind name =>
    .collection format Definition.text Definition.toJson "Definition" name
      ((indexed d settings none).definitions kind name)
  | .outline file name =>
    orError format (.item format id .str "Tree" name)
      ((Workspace.ofSettings d settings).outline d file name)
  | .doc name =>
    .item format NodeDocumentation.text NodeDocumentation.toJson "Node" name
      ((indexed d settings none).nodeDocumentation d name)
  | .symbols file =>
    orError format (.collection format EntitySymbol.text EntitySymbol.toJson "Tree" file)
      ((Workspace.ofSettings d settings).entities d file).2
  | .complete kind start =>
    .collection format id .str "Completion" start ((indexed d settings none).completions kind start)
  | .hover file line column =>
    .item format Hover.text Hover.toJson "Hover target" s!"{file}:{line}:{column}"
      ((indexed d settings none).hoverInFile d file line column)
  | .init _ | .watch _ => {}

def execute (env : Environment) (format : Format) (settings : Settings) : Command → Outcome
  | .init force =>
    let (d, result) := Settings.init env.cpus env.disk env.disk.current force
    .finished d (initOutput format result)
  | .watch root =>
    if !settings.fileWatch.enabled then
      .finished env.disk
        { stderr := joinLines ["File watching is disabled (file_watch.enabled = false)"]
          exitCode := ExitCode.settingsError.value }
    else
      let w := indexed env.disk settings root
      match Watch.Watcher.start env.disk w.root with
      | .error e => .finished env.disk (failure e.message)
      | .ok watcher =>
        .watching w watcher
          { stderr := joinLines ["Watching " ++ watcher.root ++ ". Press Ctrl+C to stop."] }
  | command => .finished env.disk (answer env.disk format settings command)

/-- The same with other output in front. -/
def Outcome.after (first : Output) : Outcome → Outcome
  | finished d output => finished d (first.andThen output)
  | watching w watcher output => watching w watcher (first.andThen output)

/-- Run a command line, without the name of the program. -/
def run (env : Environment) (args : List String) : Outcome :=
  match parse args with
  | .error u => .finished env.disk (usageOutput u)
  | .ok invocation =>
    match settingsFor env invocation.settingsFile with
    | .error output => .finished env.disk output
    | .ok (settings, remark) =>
      (execute env invocation.format settings invocation.command).after remark

end BehaviorIndex.Command
