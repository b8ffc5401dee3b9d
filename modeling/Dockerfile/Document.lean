import Dockerfile.Directive
import Dockerfile.Instruction
import Dockerfile.Line.Continuation
import Dockerfile.Variable.Table

/-!
# Documents

Everything that is known about a text: its physical lines, its logical lines and what each of them
is, the directives at the top, the variables, and the references to them.

A logical line is a directive, blank, a comment or an instruction, in this order of preference: a
directive has the form of a comment. The escape character that a directive chooses is in force from
the next logical line on. References are read under the one that is in force at the end.
-/

namespace Dockerfile

/-! ## Entries -/

/-- What a logical line is. -/
inductive Node
  | blank
  | comment
  | directive (d : Directive)
  | instruction (i : Instruction)
deriving DecidableEq

/-- A logical line and what it is. -/
structure Entry where
  line : LogicalLine
  node : Node
deriving DecidableEq

/-- Decides what a line is, given the directive that the top of the document sees in it. -/
def Node.ofLine (l : LogicalLine) : Option Directive → Node
  | some d => .directive d
  | none =>
    if l.isBlank then .blank
    else if l.isComment then .comment
    else
      match Instruction.parse 0 l.text with
      | some i => .instruction i
      | none => .blank

namespace Entry

/-- The instruction on the line, if it is one, with the number of the line. -/
def instruction? (e : Entry) : Option (Nat × Instruction) :=
  match e.node with
  | .instruction i => some (e.line.index, i)
  | _ => none

/-- The entry of the logical line that follows the given top of the document. -/
def classify (h : Header) (l : LogicalLine) : Entry × Header :=
  let fed := h.feed l.text
  (⟨l, .ofLine l fed.1⟩, fed.2)

/-- The entries of physical lines, and the top of the document in the end. Each logical line is
joined under the escape character that the lines before it have chosen. -/
def ofLines (lines : List PhysicalLine) : List Entry × Header :=
  foldLines (fun h => h.escape.text) classify 0 .initial lines

end Entry

/-- For each of `count` physical lines the number of its logical line. Lines up to the start of the
next logical line belong to the one before, dropped comment lines among them. -/
def lineMap (count : Nat) : List LogicalLine → List Nat
  | [] => []
  | [l] => List.replicate (count - l.firstLine) l.index
  | l :: next :: more =>
    List.replicate (next.firstLine - l.firstLine) l.index ++ lineMap count (next :: more)

/-! ## Documents -/

/-- A text taken apart. -/
structure Document where
  lines : List PhysicalLine
  entries : List Entry
  /-- The number of the logical line of each physical line. -/
  lineMap : List Nat
  header : Header
  table : VariableTable
  /-- The lines of the instructions and the references on them. -/
  references : List (Nat × List ResolvedReference)

namespace Document

/-- The document of physical lines, the entries on them, and the top that was seen. -/
def ofEntries (lines : List PhysicalLine) (entries : List Entry) (header : Header) : Document :=
  let instructions := entries.filterMap Entry.instruction?
  let table := VariableTable.ofInstructions instructions
  { lines, entries, header, table
    lineMap := Dockerfile.lineMap lines.length (entries.map (·.line))
    references := instructions.map fun (line, i) =>
      (line, table.references header.escape.text line i.toCommand) }

/-- The document of a text. -/
def ofText (s : List Char) : Document :=
  let lines := PhysicalLine.ofText s
  let read := Entry.ofLines lines
  ofEntries lines read.1 read.2

/-- The escape character in force at the end. -/
def escape (d : Document) : Escape := d.header.escape

/-- The references on a logical line. -/
def referencesOn (d : Document) (line : Nat) : List ResolvedReference :=
  (d.references.lookup line).getD []

/-- The entry at a place and the offset in its logical text; `none` outside the document and where
no logical text is. -/
def locate (d : Document) (p : Position) : Option (Entry × Nat) :=
  if 0 ≤ p.line ∧ 0 ≤ p.character then do
    let l ← d.lines[p.line.toNat]?
    if p.character ≤ l.content.length then do
      let number ← d.lineMap[p.line.toNat]?
      let entry ← d.entries[number]?
      let offset ← entry.line.offsetAt p
      some (entry, offset)
    else none
  else none

end Document

end Dockerfile
