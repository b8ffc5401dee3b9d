import Dockerfile.Text.Quoted
import Dockerfile.Syntax.Outline
import Dockerfile.Syntax.Directive
import Dockerfile.Syntax.Instruction
import Dockerfile.Syntax.VariableList

/-!
# The four line grammars

Each grammar reads one logical line, or the arguments of one, as a whole. Reading can be reported:
the report shows the outline of the tree, or says how the text fails to fit.
-/

namespace Dockerfile

/-- The grammars, by what they read. -/
inductive LineGrammar
  | directive
  | instruction
  | arg
  | env
deriving DecidableEq

/-- The name of a failure in reports. -/
def ParseFailure.name : ParseFailure → String
  | .endOfText => "UnexpectedEOF"
  | .character => "UnexpectedCharacters"

namespace LineGrammar

/-- The tree of a text. -/
def parse (g : LineGrammar) (s : List Char) : Except ParseFailure ParseTree :=
  match g with
  | .directive => (DirectiveForm.parse s).map DirectiveForm.tree
  | .instruction => (InstructionForm.parse s).map InstructionForm.tree
  | .arg => (ArgForm.parse s).map ArgForm.tree
  | .env => (EnvForm.parse s).map EnvForm.tree

/-- What is reported about reading a text, for a screen of `columns` columns. -/
def report (g : LineGrammar) (columns : Nat) (s : List Char) : List Char :=
  match g.parse s with
  | .ok tree => "parsed: ".toList ++ quoted s ++ '\n' :: tree.outline [' ', ' '] columns
  | .error failure => "no parse: ".toList ++ quoted s ++ ": ".toList ++ failure.name.toList

end LineGrammar

end Dockerfile
