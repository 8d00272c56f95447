import FlutterScaffold.Text.Byte
import FlutterScaffold.Text.Search
import FlutterScaffold.Text.Line
import FlutterScaffold.Text.Splice
import FlutterScaffold.Text.Table
import FlutterScaffold.Dart.Lexis
import FlutterScaffold.Dart.Bracket
import FlutterScaffold.Dart.Literal
import FlutterScaffold.Diagnostic
import FlutterScaffold.Name.Segment
import FlutterScaffold.Name.Form
import FlutterScaffold.Name.Validation
import FlutterScaffold.Registry.Route
import FlutterScaffold.Registry.Pattern
import FlutterScaffold.Registry.Anchor
import FlutterScaffold.Registry.Declaration
import FlutterScaffold.Registry.Merge
import FlutterScaffold.Registry.Patch
import FlutterScaffold.Path.Normal
import FlutterScaffold.Disk.Host
import FlutterScaffold.Disk.File
import FlutterScaffold.Task
import FlutterScaffold.Registry.Storage
import FlutterScaffold.Project.Loading
import FlutterScaffold.Template.Feature
import FlutterScaffold.Template.Single
import FlutterScaffold.Template.Application
import FlutterScaffold.Project.Pubspec
import FlutterScaffold.Shell.Quote
import FlutterScaffold.Shell.Extent
import FlutterScaffold.Shell.Word
import FlutterScaffold.Shell.Token
import FlutterScaffold.Shell.Script
import FlutterScaffold.Shell.Pattern
import FlutterScaffold.Shell.Number
import FlutterScaffold.Shell.Arithmetic
import FlutterScaffold.Shell.Decimal
import FlutterScaffold.Shell.Format
import FlutterScaffold.Shell.Field
import FlutterScaffold.Shell.Session
import FlutterScaffold.Shell.Glob
import FlutterScaffold.Shell.Expansion
import FlutterScaffold.Shell.Condition
import FlutterScaffold.Shell.Input
import FlutterScaffold.Shell.Builtin
import FlutterScaffold.Shell.Concatenation
import FlutterScaffold.Shell.Utility
import FlutterScaffold.Shell.Redirection
import FlutterScaffold.Shell.Evaluation
import FlutterScaffold.Generation.Feature
import FlutterScaffold.Generation.Application
import FlutterScaffold.CommandLine.Program
import FlutterScaffold.Disk.Change
import FlutterScaffold.Main
import FlutterScaffold.Proofs.Text.Lines
import FlutterScaffold.Proofs.Text.Search
import FlutterScaffold.Proofs.Registry.Shape
import FlutterScaffold.Proofs.Text.Splices
import FlutterScaffold.Proofs.Text.Stability
import FlutterScaffold.Proofs.Text.Breaks
import FlutterScaffold.Proofs.Name.Alphabet
import FlutterScaffold.Proofs.Registry.Presence
import FlutterScaffold.Proofs.Registry.Spelling
import FlutterScaffold.Proofs.Dart.Matching
import FlutterScaffold.Proofs.Registry.Independence
import FlutterScaffold.Proofs.Registry.Recognition
import FlutterScaffold.Proofs.Registry.Placement
import FlutterScaffold.Proofs.Registry.Addition
import FlutterScaffold.Proofs.Registry.Agreement
import FlutterScaffold.Proofs.Registry.Repetition
import FlutterScaffold.Proofs.Registry.Idempotency
import FlutterScaffold.Proofs.Registry.Breaks
import FlutterScaffold.Proofs.Dart.Reading
import FlutterScaffold.Proofs.Dart.Stretch
import FlutterScaffold.Proofs.Registry.Entry
import FlutterScaffold.Proofs.Dart.Neutral
import FlutterScaffold.Proofs.Registry.Neutrality
import FlutterScaffold.Proofs.Registry.Outcome
import FlutterScaffold.Proofs.Registry.Growth
import FlutterScaffold.Proofs.Dart.Trace
import FlutterScaffold.Proofs.Dart.Elements
import FlutterScaffold.Proofs.Dart.Passing
import FlutterScaffold.Proofs.Dart.Closing
import FlutterScaffold.Proofs.Dart.Appending
import FlutterScaffold.Proofs.Registry.Elements
import FlutterScaffold.Proofs.Registry.LastMatch
import FlutterScaffold.Proofs.Registry.Clean
import FlutterScaffold.Proofs.Registry.Settling
import FlutterScaffold.Proofs.Registry.Entered
import FlutterScaffold.Proofs.Name.Distinct
import FlutterScaffold.Proofs.Registry.Sharing
import FlutterScaffold.Proofs.Registry.Declaring
import FlutterScaffold.Proofs.Registry.Constants
import FlutterScaffold.Proofs.Registry.Separation
import FlutterScaffold.Proofs.Registry.Frame
import FlutterScaffold.Proofs.Registry.Filling
import FlutterScaffold.Proofs.Registry.Run
import FlutterScaffold.Proofs.Registry.Order
import FlutterScaffold.Proofs.Disk.Rewriting
import FlutterScaffold.Proofs.Project.Values
import FlutterScaffold.Proofs.Project.Reading
import FlutterScaffold.Proofs.Project.RoundTrip
import FlutterScaffold.Proofs.Project.Rearrangement
import FlutterScaffold.Proofs.Path.Descent
import FlutterScaffold.Proofs.Disk.Operations
import FlutterScaffold.Proofs.Generation.Containment
import FlutterScaffold.Proofs.Path.Resolution
import FlutterScaffold.Proofs.Project.Inside
import FlutterScaffold.Proofs.Generation.PageRoute
import FlutterScaffold.Proofs.Disk.Closed
import FlutterScaffold.Proofs.Disk.Walking
import FlutterScaffold.Proofs.Disk.Objects
import FlutterScaffold.Proofs.Disk.Places
import FlutterScaffold.Proofs.Disk.Effects
import FlutterScaffold.Proofs.Disk.Replacement
import FlutterScaffold.Proofs.Registry.Registration
import FlutterScaffold.Proofs.Generation.Stages
import FlutterScaffold.Proofs.Generation.Refusal
import FlutterScaffold.Proofs.Text.Pushing
import FlutterScaffold.Proofs.Dart.Regions
import FlutterScaffold.Proofs.Registry.Regions
import FlutterScaffold.Proofs.Shell.Quoting
import FlutterScaffold.Proofs.Dart.Grammar
import FlutterScaffold.Proofs.Dart.Unwinding
import FlutterScaffold.Proofs.Dart.Balance
import FlutterScaffold.Proofs.Dart.Significance
import FlutterScaffold.Proofs.Disk.Lockstep
import FlutterScaffold.Proofs.Generation.Independence
import FlutterScaffold.Proofs.Project.Offsets
import FlutterScaffold.Proofs.Name.Cutting
import FlutterScaffold.Proofs.Name.Spelling
import FlutterScaffold.Proofs.Text.Table
import FlutterScaffold.Proofs.Name.Snake
import FlutterScaffold.Proofs.Name.Usable
import FlutterScaffold.Proofs.Generation.ProjectName
import FlutterScaffold.Proofs.Project.Section
import FlutterScaffold.Proofs.Project.Packages
import FlutterScaffold.Proofs.Template.Tokens
import FlutterScaffold.Proofs.CommandLine.Groups
import FlutterScaffold.Proofs.Registry.Bounds
import FlutterScaffold.Proofs.Dart.Locality
import FlutterScaffold.Proofs.Dart.Literals
