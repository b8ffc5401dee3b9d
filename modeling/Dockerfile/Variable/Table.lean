import Dockerfile.Variable.Declaration
import Dockerfile.Variable.Reference

/-!
# The variable table

Build stages are counted: stage 0 lies before the first `FROM`, and each `FROM` opens the next one.
The table holds all declarations in the order of the document and the stage of each instruction.

A reference sees the declarations of scope 0 and of its own stage, on earlier lines and on its own
line as far as their text ends in front of the reference. A declaration of its own stage wins over
one of scope 0; among those of one scope the last one counts.
-/

namespace Dockerfile

/-- The declarations and the stages of a document. -/
structure VariableTable where
  declarations : List Declaration
  /-- The lines of the instructions and their stages. -/
  stages : List (Nat × Nat)
deriving DecidableEq

namespace VariableTable

/-- The stage of an instruction that follows one of the given stage. -/
def nextStage (stage : Nat) (i : Instruction) : Nat :=
  if i.known? = some .from then stage + 1 else stage

/-- The table of instructions after an instruction of the given stage, each with its line. -/
def after (stage : Nat) : List (Nat × Instruction) → VariableTable
  | [] => ⟨[], []⟩
  | (line, i) :: more =>
    let own := nextStage stage i
    let table := after own more
    ⟨Declaration.ofCommand i.toCommand line own ++ table.declarations, (line, own) :: table.stages⟩

/-- The table of a document's instructions. -/
def ofInstructions (instructions : List (Nat × Instruction)) : VariableTable :=
  after 0 instructions

/-- The declarations made on a line. -/
def declaredBy (t : VariableTable) (line : Int) : List Declaration :=
  t.declarations.filter fun d => (d.line : Int) == line

/-- The stage of a line; 0 if there is no instruction on it. -/
def stageOf (t : VariableTable) (line : Int) : Nat :=
  match t.stages.find? fun s => (s.1 : Int) == line with
  | some (_, stage) => stage
  | none => 0

/-- A declaration ends in front of an offset of a line. Without an offset, that is the start of
the line. -/
def endsBefore (line : Int) (offset? : Option Int) (d : Declaration) : Bool :=
  (d.line : Int) != line || offset?.any fun offset => (d.extent : Int) ≤ offset

/-- The declaration of a name that a reference on a line at an offset sees. -/
def resolve (t : VariableTable) (name : List Char) (line : Int) (offset? : Option Int) :
    Option Declaration :=
  let seen := (t.declarations.takeWhile fun d => (d.line : Int) ≤ line).filter fun d =>
    d.name == name && endsBefore line offset? d
  let stage := t.stageOf line
  (seen.filter fun d => d.scope != 0 && d.scope == stage).getLast?
    <|> (seen.filter (·.scope == 0)).getLast?

end VariableTable

/-- A reference and the declaration that it sees. -/
structure ResolvedReference extends Reference where
  declaration : Option Declaration
deriving DecidableEq

namespace ResolvedReference

/-- The value of the variable, if it has one. -/
def value (r : ResolvedReference) : Option (List Char) := r.declaration.bind (·.value)

end ResolvedReference

/-- The references in the arguments of a command on a line. -/
def VariableTable.references (t : VariableTable) (escape : List Char) (line : Nat) (c : Command) :
    List ResolvedReference :=
  (Reference.find escape line c.argumentsStart c.arguments).map fun r =>
    { r with declaration := t.resolve r.name r.line (some r.start) }

end Dockerfile
