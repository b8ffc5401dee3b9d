import Dockerfile.Cache
import Dockerfile.Describe
import Dockerfile.Main
import Dockerfile.Syntax.LineGrammar
import Dockerfile.Proofs.Variable.Table
import Dockerfile.Proofs.Variable.Visibility
import Dockerfile.Proofs.Line.Blocks
import Dockerfile.Proofs.Document.Locate
import Dockerfile.Proofs.Document.PositionMap
import Dockerfile.Proofs.Instruction.Words
import Dockerfile.Proofs.Line.Cut
import Dockerfile.Proofs.Line.Resume
import Dockerfile.Proofs.Line.Shift
import Dockerfile.Proofs.Variable.Names
import Dockerfile.Proofs.Document.Instructions
import Dockerfile.Proofs.Hover.Priority
import Dockerfile.Proofs.Document.Recut
import Dockerfile.Proofs.Hover.Recut
import Dockerfile.Proofs.Line.Accounting
import Dockerfile.Proofs.Hover.Endings
import Dockerfile.Proofs.Document.Escape
import Dockerfile.Proofs.Variable.Below
import Dockerfile.Proofs.Document.Append
import Dockerfile.Proofs.Hover.Append
import Dockerfile.Proofs.Hover.Reference
import Dockerfile.Proofs.Hover.Justified
import Dockerfile.Proofs.Document.Insert
import Dockerfile.Proofs.Hover.Insert
import Dockerfile.Proofs.Syntax.Derivation
import Dockerfile.Proofs.Syntax.Grammars
import Dockerfile.Proofs.Syntax.Declarations
import Dockerfile.Proofs.Syntax.Unambiguous
import Dockerfile.Proofs.Hover.Tokens
import Dockerfile.Proofs.Line.OnePass
import Dockerfile.Proofs.Documentation.Overrides
import Dockerfile.Proofs.CommandLine.Exit
import Dockerfile.Proofs.Line.LetterCase
import Dockerfile.Proofs.Instruction.LetterCase
import Dockerfile.Proofs.Variable.LetterCase
import Dockerfile.Proofs.Document.LetterCase
import Dockerfile.Proofs.Hover.LetterCase
import Dockerfile.Proofs.Variable.Rendering
import Dockerfile.Proofs.Instruction.Arguments
import Dockerfile.Proofs.Variable.RoundTrip
import Dockerfile.Proofs.Variable.Leftmost
import Dockerfile.Proofs.Variable.Braces
import Dockerfile.Proofs.Document.Kinds
import Dockerfile.Proofs.Document.References
import Dockerfile.Proofs.Document.Table
import Dockerfile.Proofs.Variable.OwnLine
import Dockerfile.Proofs.Line.Lossless
import Dockerfile.Proofs.Directive.Format
import Dockerfile.Proofs.Instruction.Split
import Dockerfile.Proofs.Hover.Blanks
import Dockerfile.Session
import Dockerfile.Proofs.Cache.Recency
import Dockerfile.Proofs.Hover.Session
import Dockerfile.Proofs.Documentation.LastWins
import Dockerfile.Proofs.CommandLine.Place
import Dockerfile.Proofs.CommandLine.Output
import Dockerfile.Proofs.Syntax.Outline
import Dockerfile.Proofs.CommandLine.Help
