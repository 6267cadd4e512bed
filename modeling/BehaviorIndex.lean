import BehaviorIndex.Command.Arguments
import BehaviorIndex.Command.Data
import BehaviorIndex.Command.Invocation
import BehaviorIndex.Command.Run
import BehaviorIndex.Data.Value
import BehaviorIndex.Files.Disk
import BehaviorIndex.Files.Glob
import BehaviorIndex.Files.Ignore
import BehaviorIndex.Files.Path
import BehaviorIndex.Files.Walk
import BehaviorIndex.Index.Error
import BehaviorIndex.Index.Location
import BehaviorIndex.Index.Registry
import BehaviorIndex.Index.Statistics
import BehaviorIndex.Index.Store
import BehaviorIndex.Main
import BehaviorIndex.Markup.Cursor
import BehaviorIndex.Markup.Document
import BehaviorIndex.Markup.Element
import BehaviorIndex.Markup.Entity
import BehaviorIndex.Markup.Name
import BehaviorIndex.Markup.Nesting
import BehaviorIndex.Markup.Node
import BehaviorIndex.Markup.Outline
import BehaviorIndex.Markup.Prolog
import BehaviorIndex.Markup.Reader
import BehaviorIndex.Markup.Reference
import BehaviorIndex.Markup.Tag
import BehaviorIndex.Markup.Token
import BehaviorIndex.Proofs.Files.Path
import BehaviorIndex.Proofs.Index.Log
import BehaviorIndex.Proofs.Index.Refinement
import BehaviorIndex.Proofs.Index.Registry
import BehaviorIndex.Proofs.Index.Table
import BehaviorIndex.Proofs.Markup.Entities
import BehaviorIndex.Proofs.Markup.Escape
import BehaviorIndex.Proofs.Markup.Name
import BehaviorIndex.Proofs.Markup.Passage
import BehaviorIndex.Proofs.Markup.Printer
import BehaviorIndex.Proofs.Markup.Prolog
import BehaviorIndex.Proofs.Markup.Reader
import BehaviorIndex.Proofs.Markup.RoundTrip
import BehaviorIndex.Proofs.Markup.StartTags
import BehaviorIndex.Proofs.Markup.Tag
import BehaviorIndex.Proofs.Source.Trees
import BehaviorIndex.Proofs.Text.Search
import BehaviorIndex.Proofs.Timer.Table
import BehaviorIndex.Proofs.Watch.Loop
import BehaviorIndex.Proofs.Watch.Quiescence
import BehaviorIndex.Proofs.Workspace.Indexed
import BehaviorIndex.Report.ExitCode
import BehaviorIndex.Report.Json
import BehaviorIndex.Report.Output
import BehaviorIndex.Settings.Basic
import BehaviorIndex.Settings.Decode
import BehaviorIndex.Settings.Environment
import BehaviorIndex.Settings.Init
import BehaviorIndex.Settings.Load
import BehaviorIndex.Source.Comment
import BehaviorIndex.Source.Definition
import BehaviorIndex.Source.Documentation
import BehaviorIndex.Text.Blank
import BehaviorIndex.Text.Lines
import BehaviorIndex.Text.Measure
import BehaviorIndex.Text.Numeral
import BehaviorIndex.Text.Printable
import BehaviorIndex.Text.Search
import BehaviorIndex.Text.Shortest
import BehaviorIndex.Text.Word
import BehaviorIndex.Timer.Clock
import BehaviorIndex.Timer.Table
import BehaviorIndex.Toml.Date
import BehaviorIndex.Toml.Document
import BehaviorIndex.Toml.Number
import BehaviorIndex.Toml.Statement
import BehaviorIndex.Toml.Text
import BehaviorIndex.Toml.Tree
import BehaviorIndex.Toml.Writer
import BehaviorIndex.Watch.Changes
import BehaviorIndex.Watch.Event
import BehaviorIndex.Watch.Watcher
import BehaviorIndex.Workspace.Basic
import BehaviorIndex.Workspace.Live
import BehaviorIndex.Workspace.Query
import BehaviorIndex.Proofs.Markup.Representation
import BehaviorIndex.Proofs.Timer.Safety
import BehaviorIndex.Proofs.Workspace.Mirror
import BehaviorIndex.Proofs.Workspace.Replay
import BehaviorIndex.Proofs.Source.Order
import BehaviorIndex.Proofs.Workspace.Scan
import BehaviorIndex.Proofs.Markup.Columns
import BehaviorIndex.Proofs.Markup.Collection
import BehaviorIndex.Proofs.Markup.Rendering
import BehaviorIndex.Proofs.Markup.Depth
import BehaviorIndex.Proofs.Files.Canonical
import BehaviorIndex.Proofs.Files.Selection
import BehaviorIndex.Proofs.Workspace.Located
import BehaviorIndex.Proofs.Watch.Selection
import BehaviorIndex.Proofs.Markup.Grouping
import BehaviorIndex.Proofs.Workspace.Documented
import BehaviorIndex.Proofs.Workspace.Accounts
import BehaviorIndex.Proofs.Timer.Debounce
import BehaviorIndex.Proofs.Markup.Children
import BehaviorIndex.Proofs.Markup.Noninterference
import BehaviorIndex.Proofs.Markup.Brackets
import BehaviorIndex.Proofs.Markup.Decoding
import BehaviorIndex.Proofs.Source.Locations
import BehaviorIndex.Proofs.Text.Blank
import BehaviorIndex.Proofs.Source.Comment
import BehaviorIndex.Proofs.Source.Styles
import BehaviorIndex.Proofs.Source.Findings
import BehaviorIndex.Proofs.Markup.Sources
import BehaviorIndex.Proofs.Text.Offsets
import BehaviorIndex.Proofs.Workspace.Symbols
import BehaviorIndex.Proofs.Source.Sections
import BehaviorIndex.Proofs.Workspace.Quotes
import BehaviorIndex.Proofs.Markup.TagNames
import BehaviorIndex.Proofs.Workspace.Completion
import BehaviorIndex.Proofs.Index.Exhaustion
import BehaviorIndex.Proofs.Markup.Locality
import BehaviorIndex.Proofs.Markup.Matching
import BehaviorIndex.Proofs.Markup.Insertion
import BehaviorIndex.Proofs.Data.Layers
import BehaviorIndex.Proofs.Toml.Keys
import BehaviorIndex.Proofs.Settings.Leaves
import BehaviorIndex.Proofs.Settings.Layers
import BehaviorIndex.Proofs.Markup.OpenTags
import BehaviorIndex.Proofs.Toml.Texts
import BehaviorIndex.Proofs.Toml.Values
import BehaviorIndex.Proofs.Toml.Documents
import BehaviorIndex.Proofs.Files.Writing
import BehaviorIndex.Proofs.Settings.Saving
