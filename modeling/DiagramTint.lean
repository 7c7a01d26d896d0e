import DiagramTint.Cli.Arguments
import DiagramTint.Cli.Request
import DiagramTint.Cli.Run
import DiagramTint.Config
import DiagramTint.Config.Paths
import DiagramTint.Config.Reader
import DiagramTint.Config.Store
import DiagramTint.Config.Writer
import DiagramTint.Document
import DiagramTint.Document.Outline
import DiagramTint.FileSystem
import DiagramTint.Highlights
import DiagramTint.Highlights.Paint
import DiagramTint.Json
import DiagramTint.Language
import DiagramTint.Language.FileType
import DiagramTint.Main
import DiagramTint.PathName
import DiagramTint.Proofs.Highlights.Pieces
import DiagramTint.Proofs.Text.Position
import DiagramTint.Proofs.Tree.Nesting
import DiagramTint.Record
import DiagramTint.Rule
import DiagramTint.Rule.Table
import DiagramTint.Selector
import DiagramTint.Tag
import DiagramTint.Text.Blank
import DiagramTint.Text.Bytes
import DiagramTint.Text.Lines
import DiagramTint.Text.Quoted
import DiagramTint.Text.Unprintable
import DiagramTint.Token
import DiagramTint.Tree
import DiagramTint.Tree.Listing
import DiagramTint.Yaml.Break
import DiagramTint.Yaml.Error
import DiagramTint.Yaml.Node
import DiagramTint.Yaml.Node.Build
import DiagramTint.Yaml.Scalar.Block
import DiagramTint.Yaml.Scalar.Core
import DiagramTint.Yaml.Scalar.Flow
import DiagramTint.Yaml.Scalar.Write
import DiagramTint.Yaml.Token
import DiagramTint.Yaml.Token.Lexeme
import DiagramTint.Yaml.Token.Scan
import DiagramTint.Proofs.Highlights.Painting
import DiagramTint.Document.Build
import DiagramTint.Proofs.Document.Grammar
import DiagramTint.Proofs.Rule.Resolution
import DiagramTint.Proofs.Tree.Building
import DiagramTint.Proofs.Document.Layout
import DiagramTint.Proofs.Document.Numbering
import DiagramTint.Proofs.Document.Locality
import DiagramTint.Proofs.Text.Offsets
import DiagramTint.Proofs.Highlights.Order
import DiagramTint.Proofs.Token.Touching
import DiagramTint.Proofs.Language.Builtin
import DiagramTint.Proofs.Document.Nesting
import DiagramTint.Proofs.Highlights.Runs
import DiagramTint.Proofs.Tree.Likeness
import DiagramTint.Proofs.Document.Likeness
import DiagramTint.Proofs.Highlights.Rows
import DiagramTint.Proofs.Text.Returns
import DiagramTint.Proofs.Token.Returns
import DiagramTint.Proofs.Language.LineEndings
import DiagramTint.Proofs.Language.Blocks
import DiagramTint.Proofs.Language.UserRules
import DiagramTint.Rule.Index
import DiagramTint.Proofs.Rule.Bookkeeping
import DiagramTint.Proofs.Rule.Indexing
import DiagramTint.Proofs.FileSystem.Storing
import DiagramTint.Proofs.Yaml.Break
import DiagramTint.Proofs.Yaml.Scalar.Plain
import DiagramTint.Proofs.Yaml.Scalar.Quoted
import DiagramTint.Proofs.Yaml.Scalar.Literal
import DiagramTint.Proofs.Yaml.Lexeme
import DiagramTint.Proofs.Yaml.Scan
import DiagramTint.Proofs.Config.ReadBack
import DiagramTint.Proofs.Config.Session
import DiagramTint.Guarded
import DiagramTint.Proofs.Rule.Ties
import DiagramTint.Proofs.Text.Index
import DiagramTint.Proofs.Highlights.Safety
import DiagramTint.Proofs.Record.Columns
import DiagramTint.Proofs.Record.ReadBack
import DiagramTint.Proofs.Token.Closing
import DiagramTint.Proofs.Token.Rows
import DiagramTint.Proofs.Token.Classes
import DiagramTint.Proofs.Token.Lossless
import DiagramTint.Proofs.Text.Blank
import DiagramTint.Proofs.Selector.Syntax
import DiagramTint.Proofs.Rule.Keys
import DiagramTint.Proofs.Document.Faults
import DiagramTint.Proofs.Token.Blanking
import DiagramTint.Proofs.Document.Comments
import DiagramTint.Proofs.Config.Skipping
import DiagramTint.Proofs.Tree.Depths
import DiagramTint.Proofs.Document.Outline
import DiagramTint.Highlights.Visit
import DiagramTint.Proofs.Tree.Links
import DiagramTint.Proofs.Highlights.Visits
import DiagramTint.Proofs.Highlights.Gaps
import DiagramTint.Proofs.Text.Counting
import DiagramTint.Proofs.Highlights.Lookup
