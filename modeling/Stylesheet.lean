import Stylesheet.Branch
import Stylesheet.Edit.Bag
import Stylesheet.Edit.Command
import Stylesheet.Edit.Fields
import Stylesheet.Edit.Material
import Stylesheet.Edit.Structure
import Stylesheet.Error
import Stylesheet.Input
import Stylesheet.Json.Basic
import Stylesheet.Json.Fields
import Stylesheet.Json.Numeral
import Stylesheet.Json.Reader
import Stylesheet.Json.Written
import Stylesheet.Node.Basic
import Stylesheet.Node.Kind
import Stylesheet.Node.Raws
import Stylesheet.Number.Binary64
import Stylesheet.Number.Decimal
import Stylesheet.Options
import Stylesheet.Output.Generate
import Stylesheet.Output.Mapping
import Stylesheet.Output.Plan
import Stylesheet.Path.Basic
import Stylesheet.Packages
import Stylesheet.PreviousMap
import Stylesheet.Print.Chunks
import Stylesheet.Print.Memory
import Stylesheet.Print.Style
import Stylesheet.Process.Deferred
import Stylesheet.Process.Plugin
import Stylesheet.Process.Result
import Stylesheet.Process.Run
import Stylesheet.Proofs.Chain.Again
import Stylesheet.Proofs.Chain.Annotations
import Stylesheet.Proofs.Chain.Base
import Stylesheet.Proofs.Chain.Comment
import Stylesheet.Proofs.Chain.Cutoff
import Stylesheet.Proofs.Chain.Ending
import Stylesheet.Proofs.Chain.Outline
import Stylesheet.Proofs.Chain.Runs
import Stylesheet.Proofs.Chain.Tree
import Stylesheet.Proofs.Draft.Basic
import Stylesheet.Proofs.Draft.Places
import Stylesheet.Proofs.Draft.Print
import Stylesheet.Proofs.Draft.Resaid
import Stylesheet.Proofs.Edit.Command
import Stylesheet.Proofs.Edit.Details
import Stylesheet.Proofs.Edit.Effect
import Stylesheet.Proofs.Edit.Emptied
import Stylesheet.Proofs.Edit.Ends
import Stylesheet.Proofs.Edit.Intact
import Stylesheet.Proofs.Edit.Legible
import Stylesheet.Proofs.Edit.Lists
import Stylesheet.Proofs.Edit.Marked
import Stylesheet.Proofs.Edit.Material
import Stylesheet.Proofs.Edit.Moves
import Stylesheet.Proofs.Edit.Nothing
import Stylesheet.Proofs.Edit.Params
import Stylesheet.Proofs.Edit.Put
import Stylesheet.Proofs.Edit.Restored
import Stylesheet.Proofs.Edit.Selectors
import Stylesheet.Proofs.Edit.Spacing
import Stylesheet.Proofs.Edit.Structure
import Stylesheet.Proofs.Excerpt
import Stylesheet.Proofs.Json.Fields
import Stylesheet.Proofs.Outline.Basic
import Stylesheet.Proofs.Outline.Details
import Stylesheet.Proofs.Outline.Effect
import Stylesheet.Proofs.Outline.Firm
import Stylesheet.Proofs.Outline.Heads
import Stylesheet.Proofs.Outline.Important
import Stylesheet.Proofs.Outline.Places
import Stylesheet.Proofs.Outline.Ranges
import Stylesheet.Proofs.Outline.Read
import Stylesheet.Proofs.Outline.Starts
import Stylesheet.Proofs.Outline.Step
import Stylesheet.Proofs.Output.Ends
import Stylesheet.Proofs.Output.Entries
import Stylesheet.Proofs.Output.Identity
import Stylesheet.Proofs.Output.Kept
import Stylesheet.Proofs.Output.Retold
import Stylesheet.Proofs.Output.Spots
import Stylesheet.Proofs.Path.Course
import Stylesheet.Proofs.Path.Seen
import Stylesheet.Proofs.Print.Alike
import Stylesheet.Proofs.Print.Mirror
import Stylesheet.Proofs.Print.Remembered
import Stylesheet.Proofs.Print.Reworded
import Stylesheet.Proofs.Print.Separator
import Stylesheet.Proofs.Process.Callback
import Stylesheet.Proofs.Process.Cleared
import Stylesheet.Proofs.Process.Coverage
import Stylesheet.Proofs.Process.Detached
import Stylesheet.Proofs.Process.Entered
import Stylesheet.Proofs.Process.Failure
import Stylesheet.Proofs.Process.Move
import Stylesheet.Proofs.Process.Named
import Stylesheet.Proofs.Process.Once
import Stylesheet.Proofs.Process.Pass
import Stylesheet.Proofs.Process.Settled
import Stylesheet.Proofs.Process.Stack
import Stylesheet.Proofs.Process.Tended
import Stylesheet.Proofs.Reading.Careful
import Stylesheet.Proofs.Reading.Declarations
import Stylesheet.Proofs.Reading.Nodes
import Stylesheet.Proofs.Reading.Rounds
import Stylesheet.Proofs.Reading.Runs
import Stylesheet.Proofs.Statement.Ahead
import Stylesheet.Proofs.Statement.Colon
import Stylesheet.Proofs.Statement.Important
import Stylesheet.Proofs.Statement.Lookahead
import Stylesheet.Proofs.Statement.Text
import Stylesheet.Proofs.Statement.Unplaced
import Stylesheet.Proofs.Text.Cut
import Stylesheet.Proofs.Text.Offset
import Stylesheet.Proofs.Text.Parts
import Stylesheet.Proofs.Text.Percent
import Stylesheet.Proofs.Text.Pieces
import Stylesheet.Proofs.Text.Position
import Stylesheet.Proofs.Token.Ahead
import Stylesheet.Proofs.Token.Feeds
import Stylesheet.Proofs.Token.Parens
import Stylesheet.Proofs.Token.Scanner
import Stylesheet.Proofs.Token.Quoted
import Stylesheet.Proofs.Token.Spelling
import Stylesheet.Proofs.Token.Tiles
import Stylesheet.Proofs.Tree.Admitted
import Stylesheet.Proofs.Tree.Change
import Stylesheet.Proofs.Tree.Consistent
import Stylesheet.Proofs.Tree.Cursors
import Stylesheet.Proofs.Tree.Grafted
import Stylesheet.Proofs.Tree.Later
import Stylesheet.Proofs.Tree.Layout
import Stylesheet.Proofs.Tree.Links
import Stylesheet.Proofs.Tree.Marks
import Stylesheet.Proofs.Tree.Midway
import Stylesheet.Proofs.Tree.Order
import Stylesheet.Proofs.Tree.Orderly
import Stylesheet.Proofs.Tree.Ranges
import Stylesheet.Proofs.Tree.Reload
import Stylesheet.Proofs.Tree.Reread
import Stylesheet.Proofs.Tree.Shape
import Stylesheet.Proofs.Tree.Written
import Stylesheet.Proofs.Usual.Build
import Stylesheet.Proofs.Usual.Forms
import Stylesheet.Proofs.Usual.Heads
import Stylesheet.Proofs.Usual.Marks
import Stylesheet.Proofs.Usual.Print
import Stylesheet.Proofs.Usual.Read
import Stylesheet.Proofs.Usual.Spelled
import Stylesheet.Proofs.Usual.Statements
import Stylesheet.Proofs.Walk.Each
import Stylesheet.Proofs.Walk.History
import Stylesheet.Proofs.Walk.InFront
import Stylesheet.Proofs.Walk.PreOrder
import Stylesheet.Sketch
import Stylesheet.SourceMap.Basic
import Stylesheet.SourceMap.Layout
import Stylesheet.SourceMap.Reader
import Stylesheet.SourceMap.Writer
import Stylesheet.Statement.Basic
import Stylesheet.Statement.Declaration
import Stylesheet.Statement.Outline
import Stylesheet.SyntaxError
import Stylesheet.Text.Blank
import Stylesheet.Text.Case
import Stylesheet.Text.Cut
import Stylesheet.Text.Escape
import Stylesheet.Text.LineIndex
import Stylesheet.Text.Measure
import Stylesheet.Token.Basic
import Stylesheet.Token.Decoded
import Stylesheet.Token.Lexer
import Stylesheet.Tree.Basic
import Stylesheet.Tree.Graft
import Stylesheet.Tree.Insert
import Stylesheet.Tree.Json
import Stylesheet.Tree.Parse
import Stylesheet.Url
import Stylesheet.Walk.Each
import Stylesheet.Workspace
