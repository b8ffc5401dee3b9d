import Dockerfile.Syntax.ParseTree

/-!
# The form of an instruction

    instruction ::= blanks? keyword (blanks arguments)? blanks?

The keyword is the first run of non-blank characters, the arguments are the rest of the line
without the blanks around it. `InstructionForm` keeps every character.
-/

namespace Dockerfile

/-- The parts of an instruction. -/
structure InstructionForm where
  /-- The blanks in front of the keyword. -/
  lead : List Char
  keyword : List Char
  /-- The blanks between keyword and arguments. -/
  gap : List Char
  /-- Empty if there are none. -/
  arguments : List Char
  /-- The blanks at the end. -/
  trail : List Char
deriving DecidableEq

namespace InstructionForm

/-- The form written out. -/
def source (f : InstructionForm) : List Char :=
  f.lead ++ (f.keyword ++ (f.gap ++ (f.arguments ++ f.trail)))

/-- Reads a text as an instruction. -/
def parse (s : List Char) : Except ParseFailure InstructionForm :=
  let body := skipBlanks s
  let keyword := body.takeWhile isKeywordChar
  let after := body.dropWhile isKeywordChar
  if keyword.isEmpty then .error .endOfText
  else
    match argumentRun (skipBlanks after) with
    | none => .ok ⟨leadingBlanks s, keyword, [], [], after⟩
    | some (arguments, trail) =>
      if isAllBlank trail then .ok ⟨leadingBlanks s, keyword, leadingBlanks after, arguments, trail⟩
      else .error .character

/-- The offset of the keyword. -/
def keywordStart (f : InstructionForm) : Nat := f.lead.length

/-- The offset of the arguments; right behind the keyword if there are none. -/
def argumentsStart (f : InstructionForm) : Nat := f.lead.length + f.keyword.length + f.gap.length

/-- The tree of the form. -/
def tree (f : InstructionForm) : ParseTree :=
  let keyword : Token := ⟨.keyword, f.keyword, f.keywordStart⟩
  let arguments : Token := ⟨.arguments, f.arguments, f.argumentsStart⟩
  .node .start 0 f.source.length
    (.token keyword :: if f.arguments.isEmpty then [] else [.token arguments])

end InstructionForm

end Dockerfile
