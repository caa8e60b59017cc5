import Mixsheet.Argument.OfTokens
import Mixsheet.Catalog
import Mixsheet.Color
import Mixsheet.Command.Files
import Mixsheet.Decimal.Notation
import Mixsheet.Expansion
import Mixsheet.Main
import Mixsheet.Node.OfTokens
import Mixsheet.Node.Render
import Mixsheet.Processor
import Mixsheet.Proofs.Argument.Commas
import Mixsheet.Proofs.Argument.Comments
import Mixsheet.Proofs.Argument.Leaves
import Mixsheet.Proofs.Catalog.Border
import Mixsheet.Proofs.Catalog.Row
import Mixsheet.Proofs.Catalog.Spaced
import Mixsheet.Proofs.Color.Channels
import Mixsheet.Proofs.Command.Outcome
import Mixsheet.Proofs.Cursor.Access
import Mixsheet.Proofs.Cursor.Arguments
import Mixsheet.Proofs.Cursor.Reader
import Mixsheet.Proofs.Cursor.Scanner
import Mixsheet.Proofs.Cursor.Statements
import Mixsheet.Proofs.Evaluation.Scopes
import Mixsheet.Proofs.Expansion.Positions
import Mixsheet.Proofs.Node.Closers
import Mixsheet.Proofs.Node.Concat
import Mixsheet.Proofs.Node.Faults
import Mixsheet.Proofs.Node.Ink
import Mixsheet.Proofs.Node.KeyedCall
import Mixsheet.Proofs.Node.LastSemicolon
import Mixsheet.Proofs.Node.NewCall
import Mixsheet.Proofs.Node.Newline
import Mixsheet.Proofs.Node.Property
import Mixsheet.Proofs.Node.Reassembly
import Mixsheet.Proofs.Node.Spans
import Mixsheet.Proofs.Opacity
import Mixsheet.Proofs.Processor.Alike
import Mixsheet.Proofs.Processor.Errors
import Mixsheet.Proofs.Processor.Twice
import Mixsheet.Proofs.Processor.Warnings
import Mixsheet.Proofs.Registry.Changes
import Mixsheet.Proofs.Token.Grammar
import Mixsheet.Proofs.Token.Partition
import Mixsheet.Proofs.Token.SubRun
import Mixsheet.Recipe
import Mixsheet.Token.OfText
