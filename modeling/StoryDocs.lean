import StoryDocs.Command.Arguments
import StoryDocs.Command.Collection
import StoryDocs.Command.Report
import StoryDocs.Command.Run
import StoryDocs.Config.EditorSettings
import StoryDocs.Config.Json
import StoryDocs.Config.Preferences
import StoryDocs.Config.Project
import StoryDocs.Config.Toml.Parser
import StoryDocs.Config.Toml.Scalar
import StoryDocs.Config.Toml.Value
import StoryDocs.Config.Yaml.Cursor
import StoryDocs.Config.Yaml.Node
import StoryDocs.Config.Yaml.Scalar
import StoryDocs.Config.Yaml.Scanner
import StoryDocs.Diagnostic
import StoryDocs.Dialect
import StoryDocs.Files.Path
import StoryDocs.Files.Store
import StoryDocs.Layout.Discovery
import StoryDocs.Layout.Formatter
import StoryDocs.Layout.Literal
import StoryDocs.Layout.Quote
import StoryDocs.Layout.Style
import StoryDocs.Main
import StoryDocs.Markup.Edit
import StoryDocs.Markup.Error
import StoryDocs.Markup.Node
import StoryDocs.Markup.Parser
import StoryDocs.Markup.Position
import StoryDocs.Markup.Printer
import StoryDocs.Markup.Scan
import StoryDocs.Markup.TagScan
import StoryDocs.Migration
import StoryDocs.Naming
import StoryDocs.Proofs.Command.Collection
import StoryDocs.Proofs.Command.Writing
import StoryDocs.Proofs.Config.Sections
import StoryDocs.Proofs.Files.Path
import StoryDocs.Proofs.Files.Store
import StoryDocs.Proofs.Layout.Again
import StoryDocs.Proofs.Layout.Bytes
import StoryDocs.Proofs.Layout.Commas
import StoryDocs.Proofs.Layout.Discovery
import StoryDocs.Proofs.Layout.Idempotence
import StoryDocs.Proofs.Layout.Lines
import StoryDocs.Proofs.Layout.Placement
import StoryDocs.Proofs.Layout.Quotes
import StoryDocs.Proofs.Layout.Requoting
import StoryDocs.Proofs.Layout.Settled
import StoryDocs.Proofs.Layout.Values
import StoryDocs.Proofs.Layout.Verbatim
import StoryDocs.Proofs.Layout.Whitespace
import StoryDocs.Proofs.Markup.Alignment
import StoryDocs.Proofs.Markup.Bytes.Cursor
import StoryDocs.Proofs.Markup.Bytes.Places
import StoryDocs.Proofs.Markup.Bytes.Prose
import StoryDocs.Proofs.Markup.Bytes.Reader
import StoryDocs.Proofs.Markup.Bytes.Safety
import StoryDocs.Proofs.Markup.Bytes.Scan
import StoryDocs.Proofs.Markup.Bytes.Sight
import StoryDocs.Proofs.Markup.Bytes.Tags
import StoryDocs.Proofs.Markup.Canonical
import StoryDocs.Proofs.Markup.Coordinates
import StoryDocs.Proofs.Markup.Embedding
import StoryDocs.Proofs.Markup.Extent
import StoryDocs.Proofs.Markup.Faults
import StoryDocs.Proofs.Markup.Generated
import StoryDocs.Proofs.Markup.InPlace
import StoryDocs.Proofs.Markup.Indent
import StoryDocs.Proofs.Markup.Locality
import StoryDocs.Proofs.Markup.Lookahead
import StoryDocs.Proofs.Markup.Lossless
import StoryDocs.Proofs.Markup.Lowering
import StoryDocs.Proofs.Markup.Measures
import StoryDocs.Proofs.Markup.Names
import StoryDocs.Proofs.Markup.Passing
import StoryDocs.Proofs.Markup.Positions
import StoryDocs.Proofs.Markup.Printing
import StoryDocs.Proofs.Markup.Prose
import StoryDocs.Proofs.Markup.Reading
import StoryDocs.Proofs.Markup.Recognition
import StoryDocs.Proofs.Markup.Regenerated
import StoryDocs.Proofs.Markup.Rereading
import StoryDocs.Proofs.Markup.Samples
import StoryDocs.Proofs.Markup.Scanning
import StoryDocs.Proofs.Markup.Shape
import StoryDocs.Proofs.Markup.Surroundings
import StoryDocs.Proofs.Markup.Tags
import StoryDocs.Proofs.Migration.Accepted
import StoryDocs.Proofs.Migration.Agreement
import StoryDocs.Proofs.Migration.Documentation
import StoryDocs.Proofs.Migration.Modules
import StoryDocs.Proofs.Migration.Remarks
import StoryDocs.Proofs.Migration.Stages
import StoryDocs.Proofs.Outcome
import StoryDocs.Proofs.Script.Atoms.Basic
import StoryDocs.Proofs.Script.Atoms.Classes
import StoryDocs.Proofs.Script.Atoms.Declarations
import StoryDocs.Proofs.Script.Atoms.Expressions
import StoryDocs.Proofs.Script.Atoms.Extents
import StoryDocs.Proofs.Script.Atoms.Grouped
import StoryDocs.Proofs.Script.Atoms.Lexing
import StoryDocs.Proofs.Script.Atoms.Literals
import StoryDocs.Proofs.Script.Atoms.Modules
import StoryDocs.Proofs.Script.Atoms.Names
import StoryDocs.Proofs.Script.Atoms.Objects
import StoryDocs.Proofs.Script.Atoms.Patterns
import StoryDocs.Proofs.Script.Atoms.Places
import StoryDocs.Proofs.Script.Atoms.Reads
import StoryDocs.Proofs.Script.Atoms.Statements
import StoryDocs.Proofs.Script.Atoms.Tags
import StoryDocs.Proofs.Script.Atoms.Types
import StoryDocs.Proofs.Script.Atoms.Yields
import StoryDocs.Proofs.Script.Bytes.Demotion
import StoryDocs.Proofs.Script.Bytes.Positions
import StoryDocs.Proofs.Script.Bytes.Specifiers
import StoryDocs.Proofs.Script.Bytes.Statements
import StoryDocs.Proofs.Script.Core.Entries
import StoryDocs.Proofs.Script.Core.Imports
import StoryDocs.Proofs.Script.Core.Modules
import StoryDocs.Proofs.Script.Core.Patterns
import StoryDocs.Proofs.Script.Core.Reading
import StoryDocs.Proofs.Script.Core.Respacing
import StoryDocs.Proofs.Script.Core.Syntax
import StoryDocs.Proofs.Script.Core.Tags
import StoryDocs.Proofs.Script.Core.Tokens
import StoryDocs.Proofs.Script.Demotion
import StoryDocs.Proofs.Script.Exports
import StoryDocs.Proofs.Script.Fragments
import StoryDocs.Proofs.Script.Items
import StoryDocs.Proofs.Script.Operand
import StoryDocs.Proofs.Script.Quoted
import StoryDocs.Proofs.Script.Returned
import StoryDocs.Proofs.Script.Running
import StoryDocs.Proofs.Script.Shape
import StoryDocs.Proofs.Script.Sources
import StoryDocs.Proofs.Script.Specifiers
import StoryDocs.Proofs.Script.Targets
import StoryDocs.Proofs.Script.Tokens
import StoryDocs.Proofs.Script.Values
import StoryDocs.Proofs.Story.Attributes
import StoryDocs.Proofs.Story.Extraction
import StoryDocs.Proofs.Story.ExtractionRemains
import StoryDocs.Proofs.Story.Members
import StoryDocs.Proofs.Story.Moving
import StoryDocs.Proofs.Story.OwnLines
import StoryDocs.Proofs.Story.Properties
import StoryDocs.Proofs.Story.Records
import StoryDocs.Proofs.Story.Reference
import StoryDocs.Proofs.Story.Relaying
import StoryDocs.Proofs.Story.Remaining
import StoryDocs.Proofs.Story.Rewriting
import StoryDocs.Proofs.Story.Segment
import StoryDocs.Proofs.Story.Steady
import StoryDocs.Proofs.Story.Synthesis
import StoryDocs.Proofs.Story.Templates
import StoryDocs.Proofs.Story.Unindenting
import StoryDocs.Proofs.Text.Buffer
import StoryDocs.Proofs.Text.Case
import StoryDocs.Proofs.Text.Dedent
import StoryDocs.Proofs.Text.Octets
import StoryDocs.Proofs.Text.Slice
import StoryDocs.Proofs.Text.Splice
import StoryDocs.Proofs.Text.Trimming
import StoryDocs.Script.Error
import StoryDocs.Script.Fragment
import StoryDocs.Script.Grammar.Basic
import StoryDocs.Script.Grammar.Class
import StoryDocs.Script.Grammar.Declaration
import StoryDocs.Script.Grammar.Expression
import StoryDocs.Script.Grammar.Function
import StoryDocs.Script.Grammar.Item
import StoryDocs.Script.Grammar.Literal
import StoryDocs.Script.Grammar.Name
import StoryDocs.Script.Grammar.Object
import StoryDocs.Script.Grammar.Operator
import StoryDocs.Script.Grammar.Pattern
import StoryDocs.Script.Grammar.Statement
import StoryDocs.Script.Grammar.Tag
import StoryDocs.Script.Grammar.Target
import StoryDocs.Script.Grammar.Type
import StoryDocs.Script.Lexer
import StoryDocs.Script.Module
import StoryDocs.Script.Program
import StoryDocs.Script.Reserved
import StoryDocs.Script.Specifier
import StoryDocs.Script.Token
import StoryDocs.Script.Tree
import StoryDocs.Story.Extraction
import StoryDocs.Story.Synthesis
import StoryDocs.Text.Blank
import StoryDocs.Text.Case
import StoryDocs.Text.Dedent
import StoryDocs.Text.Digit
import StoryDocs.Text.Letter
import StoryDocs.Text.Line
import StoryDocs.Text.Slice
import StoryDocs.Text.Splice
