import Dockerfile.Document

/-!
# Hover

What there is to show at a place of a document. Checked in this order:

1. the key of an `escape` directive: its documentation;
2. the word of an instruction or of its trigger: the documentation of the keyword, if it is one;
3. the name in a declaration of `ARG`: the value declared;
4. a reference: the value of the declaration that it sees.

The first of them that is at the place decides, even if it has nothing to show. What to show is
either a topic, about which a source of documentation is asked, or a value.
-/

namespace Dockerfile

/-- A source of documentation. It need not know every topic. -/
abbrev Provider := Topic → Option (List Char)

/-- What is to be shown at a place. -/
inductive Target
  | documentation (t : Topic)
  | value (s : List Char)
deriving DecidableEq

namespace Target

/-- What a target shows. -/
def contents (provider : Provider) : Target → Option (List Char)
  | .documentation t => provider t
  | .value s => some s

/-- The topic that a source of documentation is asked about. -/
def topic? : Target → Option Topic
  | .documentation t => some t
  | .value _ => none

end Target

/-- The target at an offset of a directive. -/
def Directive.target? (d : Directive) (offset : Int) : Option Target :=
  if d.recognized && d.onKey offset then some (.documentation .escape) else none

namespace Document

/-- The target at an offset of the instruction on a line. -/
def instructionTarget? (d : Document) (line : Nat) (i : Instruction) (offset : Int) :
    Option Target :=
  match i.commandAt offset with
  | some c => c.known?.map fun k => .documentation (.keyword k)
  | none =>
    let own := if i.known? = some .arg then d.table.declaredBy line else []
    match own.find? (·.onName offset) with
    | some declaration => declaration.value.map .value
    | none =>
      ((d.referencesOn line).find? (·.contains offset)).bind fun r => r.value.map .value

/-- The target at a place. -/
def target? (d : Document) (p : Position) : Option Target := do
  let (entry, offset) ← d.locate p
  match entry.node with
  | .directive directive => directive.target? offset
  | .instruction i => d.instructionTarget? entry.line.index i offset
  | .blank => none
  | .comment => none

/-- What is shown at a place. -/
def hover (d : Document) (provider : Provider) (p : Position) : Option (List Char) :=
  (d.target? p).bind (·.contents provider)

end Document

/-- What is shown at a place of a text. -/
def hover (provider : Provider) (s : List Char) (p : Position) : Option (List Char) :=
  (Document.ofText s).hover provider p

end Dockerfile
