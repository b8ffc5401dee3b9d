import Dockerfile.Keyword
import Dockerfile.Syntax.Instruction

/-!
# Instructions

A logical line that is neither blank nor a comment is an instruction: a word and its arguments. The
word need not be a keyword. The arguments of `ONBUILD` are an instruction themselves, a trigger,
which has no trigger of its own.

All offsets are those of the logical text, also the ones inside a trigger.
-/

namespace Dockerfile

/-! ## Commands -/

/-- A word and its arguments. -/
structure Command where
  /-- The word as it is written. -/
  word : List Char
  wordStart : Nat
  /-- The arguments without the blanks around them; empty if there are none. -/
  arguments : List Char
  argumentsStart : Nat
deriving DecidableEq

namespace Command

/-- Reads a text that starts at `offset` of the logical text. -/
def parse (offset : Nat) (s : List Char) : Option Command :=
  match InstructionForm.parse s with
  | .ok form =>
    some ⟨form.keyword, offset + form.keywordStart, form.arguments, offset + form.argumentsStart⟩
  | .error _ => none

/-- The word in capitals, which can be longer than the word. -/
def keyword (c : Command) : List Char := upperCase c.word

/-- The keyword that the word stands for, if it is one. -/
def known? (c : Command) : Option Keyword := Keyword.ofWord? c.word

/-- The offset behind the word. -/
def wordEnd (c : Command) : Nat := c.wordStart + c.word.length

/-- The offset behind the arguments. -/
def argumentsEnd (c : Command) : Nat := c.argumentsStart + c.arguments.length

/-- An offset on the word, its end included. -/
def onWord (c : Command) (offset : Int) : Bool :=
  (c.wordStart : Int) ≤ offset && offset ≤ (c.wordEnd : Int)

end Command

/-! ## Instructions -/

/-- A command and, under `ONBUILD`, the command that it triggers. -/
structure Instruction extends Command where
  trigger : Option Command
deriving DecidableEq

namespace Instruction

/-- Reads a text that starts at `offset` of the logical text. -/
def parse (offset : Nat) (s : List Char) : Option Instruction :=
  (Command.parse offset s).map fun c =>
    { c with
      trigger :=
        if c.known? = some .onbuild ∧ c.arguments ≠ [] then
          Command.parse c.argumentsStart c.arguments
        else none }

/-- The command, the instruction's own or its trigger, whose word is at an offset. -/
def commandAt (i : Instruction) (offset : Int) : Option Command :=
  if i.onWord offset then some i.toCommand else i.trigger.filter (·.onWord offset)

end Instruction

end Dockerfile
