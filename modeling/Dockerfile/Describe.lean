import Dockerfile.Document
import Dockerfile.Text.Numeral
import Dockerfile.Text.Quoted

/-!
# Descriptions

Short texts that show the parts of a document, each on one line.
-/

namespace Dockerfile

/-- The number, the text, and the physical lines from the first to the last. -/
def LogicalLine.describe (l : LogicalLine) : List Char :=
  "Logical_Line(".toList ++ decimal l.index ++ ", ".toList ++ quoted l.text ++ ", lines ".toList
    ++ decimal l.firstLine ++ '-' :: decimal l.lastLine ++ [')']

/-- The key and the value, as they are written. -/
def Directive.describe (d : Directive) : List Char :=
  "Directive(".toList ++ quoted d.key ++ ", ".toList ++ quoted d.value ++ [')']

/-- The keyword in capitals and the arguments. -/
def Command.summary (c : Command) : List Char :=
  quoted c.keyword ++ ", ".toList ++ quoted c.arguments

/-- The command and its trigger. -/
def Instruction.describe (i : Instruction) : List Char :=
  let nested := match i.trigger with
    | none => []
    | some c => ", nested=Instruction(".toList ++ c.summary ++ [')']
  "Instruction(".toList ++ i.toCommand.summary ++ nested ++ [')']

/-- Who declares what in which scope. -/
def Declaration.describe (d : Declaration) : List Char :=
  "Declaration(".toList ++ d.declarer.keyword.name ++ ' ' :: d.name ++ '=' :: quotedOrNone d.value
    ++ ", scope ".toList ++ decimal d.scope ++ [')']

/-- The name, the span, and the declaration that is seen. -/
def ResolvedReference.describe (r : ResolvedReference) : List Char :=
  let declaration := match r.declaration with
    | none => "None".toList
    | some d => d.describe
  "Reference(".toList ++ r.name ++ ", ".toList ++ decimal r.start ++ '-' :: decimal r.stop
    ++ ", ".toList ++ declaration ++ [')']

/-- What is at a logical line; nothing for a blank line and a comment. -/
def Node.describe? : Node → Option (List Char)
  | .blank => none
  | .comment => none
  | .directive d => some d.describe
  | .instruction i => some i.describe

/-- How many physical lines there are, and the escape character in force at the end. -/
def Document.describe (d : Document) : List Char :=
  "Document(".toList ++ decimal d.lines.length ++ " lines, escape ".toList ++ quoted d.escape.text
    ++ [')']

end Dockerfile
