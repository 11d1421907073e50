import AgentRelay.Agent
import AgentRelay.Body.Position
import AgentRelay.Body.Segment
import AgentRelay.Body.Selection
import AgentRelay.Body.Spelling
import AgentRelay.Calendar
import AgentRelay.CommandLine.Arguments
import AgentRelay.CommandLine.Program
import AgentRelay.CommandLine.Request
import AgentRelay.CommandLine.Token
import AgentRelay.CommandName
import AgentRelay.Document.Basic
import AgentRelay.Document.CommandFile
import AgentRelay.Document.Provenance
import AgentRelay.Document.SkillFolder
import AgentRelay.Document.Support
import AgentRelay.Document.Validation
import AgentRelay.Failure
import AgentRelay.FieldKey
import AgentRelay.Files.Disk
import AgentRelay.Files.Tree
import AgentRelay.Frontmatter
import AgentRelay.Location
import AgentRelay.Main
import AgentRelay.Neutral.Basic
import AgentRelay.Neutral.Command
import AgentRelay.Neutral.Hub
import AgentRelay.Neutral.Skill
import AgentRelay.Number.Binary64
import AgentRelay.Number.Decimal
import AgentRelay.Number.Shortest
import AgentRelay.Number.Whole
import AgentRelay.Path
import AgentRelay.Proofs.Body.Braced
import AgentRelay.Proofs.Body.Exact
import AgentRelay.Proofs.Body.Greedy
import AgentRelay.Proofs.Body.Hop
import AgentRelay.Proofs.Body.Layout
import AgentRelay.Proofs.Body.Parts
import AgentRelay.Proofs.Body.Quoting
import AgentRelay.Proofs.Body.Reading
import AgentRelay.Proofs.Body.Reread
import AgentRelay.Proofs.Body.Return
import AgentRelay.Proofs.Body.Rule
import AgentRelay.Proofs.Body.Scan
import AgentRelay.Proofs.Body.Selection
import AgentRelay.Proofs.Body.Ticked
import AgentRelay.Proofs.CommandLine.Order
import AgentRelay.Proofs.CommandLine.Preview
import AgentRelay.Proofs.CommandName
import AgentRelay.Proofs.Document.Again
import AgentRelay.Proofs.Document.Delivery
import AgentRelay.Proofs.Document.Failing
import AgentRelay.Proofs.Document.Reading
import AgentRelay.Proofs.Document.Writing
import AgentRelay.Proofs.Except
import AgentRelay.Proofs.Extension
import AgentRelay.Proofs.FieldKey
import AgentRelay.Proofs.Files.Again
import AgentRelay.Proofs.Files.Ends
import AgentRelay.Proofs.Files.Patch
import AgentRelay.Proofs.Files.Tree
import AgentRelay.Proofs.Files.Work
import AgentRelay.Proofs.Files.World
import AgentRelay.Proofs.Frontmatter
import AgentRelay.Proofs.Frontmatter.Grammar
import AgentRelay.Proofs.Hub.Again
import AgentRelay.Proofs.Hub.History
import AgentRelay.Proofs.Hub.Isolation
import AgentRelay.Proofs.Hub.Return
import AgentRelay.Proofs.Hub.Section
import AgentRelay.Proofs.Location
import AgentRelay.Proofs.Mapping
import AgentRelay.Proofs.Neutral.Foreign
import AgentRelay.Proofs.Neutral.Hop
import AgentRelay.Proofs.Neutral.Origins
import AgentRelay.Proofs.Neutral.Relabelling
import AgentRelay.Proofs.Neutral.Return
import AgentRelay.Proofs.Neutral.Route
import AgentRelay.Proofs.Neutral.SharedKeys
import AgentRelay.Proofs.Number.Binary64
import AgentRelay.Proofs.Path
import AgentRelay.Proofs.Settings.Cascade
import AgentRelay.Proofs.Settings.Check
import AgentRelay.Proofs.Settings.Merge
import AgentRelay.Proofs.Settings.Nested
import AgentRelay.Proofs.Skill.Fields
import AgentRelay.Proofs.Skill.RoundTrip
import AgentRelay.Proofs.Sync.Again
import AgentRelay.Proofs.Sync.Conversion
import AgentRelay.Proofs.Sync.Interrupted
import AgentRelay.Proofs.Sync.Item
import AgentRelay.Proofs.Sync.Keeping
import AgentRelay.Proofs.Sync.Mirror
import AgentRelay.Proofs.Sync.Outcome
import AgentRelay.Proofs.Sync.Preview
import AgentRelay.Proofs.Sync.Report
import AgentRelay.Proofs.Sync.Rereading
import AgentRelay.Proofs.Sync.Run
import AgentRelay.Proofs.Sync.Settled
import AgentRelay.Proofs.Sync.Settling
import AgentRelay.Proofs.Sync.Spared
import AgentRelay.Proofs.Sync.Targets
import AgentRelay.Proofs.Sync.Turns
import AgentRelay.Proofs.Text
import AgentRelay.Proofs.Toml.BasicString
import AgentRelay.Proofs.Toml.Origins
import AgentRelay.Proofs.Toml.Relabelling
import AgentRelay.Proofs.Value.Closed
import AgentRelay.Proofs.Value.Key
import AgentRelay.Proofs.Value.Origins
import AgentRelay.Proofs.Value.Relabelling
import AgentRelay.Proofs.Yaml.Lines
import AgentRelay.Proofs.Yaml.Relabelling
import AgentRelay.Proofs.Yaml.Sheet
import AgentRelay.Proofs.Yaml.Value
import AgentRelay.Settings.Cascade
import AgentRelay.Settings.Check
import AgentRelay.Settings.Merge
import AgentRelay.Status
import AgentRelay.Sync.Item
import AgentRelay.Sync.Report
import AgentRelay.Sync.Run
import AgentRelay.Text.Alnum
import AgentRelay.Text.Blank
import AgentRelay.Text.Changes
import AgentRelay.Text.Digit
import AgentRelay.Text.Lower
import AgentRelay.Text.Newline
import AgentRelay.Text.Pieces
import AgentRelay.Text.Printable
import AgentRelay.Text.Utf8
import AgentRelay.Toml.Document
import AgentRelay.Toml.Lines
import AgentRelay.Toml.Moment
import AgentRelay.Toml.Quoted
import AgentRelay.Toml.Value
import AgentRelay.Toml.Writer
import AgentRelay.Value.Basic
import AgentRelay.Value.Display
import AgentRelay.Value.Json
import AgentRelay.Value.Mapping
import AgentRelay.Yaml.Lexer
import AgentRelay.Yaml.Lexer.Block
import AgentRelay.Yaml.Lexer.Flow
import AgentRelay.Yaml.Moment
import AgentRelay.Yaml.Node
import AgentRelay.Yaml.Scalar
import AgentRelay.Yaml.Stream
import AgentRelay.Yaml.Tag
import AgentRelay.Yaml.Token
import AgentRelay.Yaml.Value
import AgentRelay.Yaml.Writer
import AgentRelay.Yaml.Writer.Analysis
import AgentRelay.Yaml.Writer.Sheet
