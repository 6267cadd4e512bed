import BehaviorIndex.Files.Path
import BehaviorIndex.Markup.Document

/-!
# Errors

What can go wrong when files are indexed or queried, with the wording of each error, a code for
programs, and advice for people.
-/

namespace BehaviorIndex

inductive IndexError where
  | fileRead (path : Path) (reason : String)
  | parse (path : Path) (source : Markup.ParseError)
  | idsExhausted
  | settings (reason : String)
  | watch (reason : String)
  deriving DecidableEq, Repr

namespace IndexError

def message : IndexError → String
  | fileRead path reason => s!"Failed to read file '{path}': {reason}"
  | parse path source => s!"Failed to parse '{path}': {source.message}"
  | idsExhausted => "Failed to create file ID: maximum file count reached"
  | settings reason => s!"Invalid configuration: {reason}"
  | watch reason => s!"File watcher failed: {reason}"

def code : IndexError → String
  | fileRead .. => "FILE_READ_ERROR"
  | parse .. => "PARSE_ERROR"
  | idsExhausted => "FILE_ID_EXHAUSTED"
  | settings _ => "CONFIG_ERROR"
  | watch _ => "WATCH_ERROR"

def suggestions : IndexError → List String
  | fileRead .. =>
    ["Check that the file exists and you have read permissions",
      "Ensure the file is not locked by another process"]
  | parse .. =>
    ["Fix the malformed markup and run the query again",
      "Outlines and entity listings stay unavailable until the file parses"]
  | idsExhausted => []
  | settings _ =>
    ["Run 'treesense config' to inspect the effective settings",
      "Run 'treesense init --force' to regenerate .treesense/settings.toml"]
  | watch _ =>
    ["Check file system permissions on the workspace root",
      "Raise the inotify watch limit if the workspace is very large"]

end IndexError

end BehaviorIndex
