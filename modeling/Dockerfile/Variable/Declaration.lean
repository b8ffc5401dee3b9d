import Dockerfile.Instruction
import Dockerfile.Syntax.VariableList

/-!
# Declarations

`ARG` and `ENV` declare variables. A declaration belongs to a scope: to scope 0 before the first
`FROM`, and from then on to the stage that the last `FROM` has opened. It covers the text from its
name to the next declaration on the line, or to the end of the arguments.
-/

namespace Dockerfile

/-- The instructions that declare variables. -/
inductive Declarer
  | arg
  | env
deriving DecidableEq

namespace Declarer

/-- The keyword of the instruction. -/
def keyword : Declarer → Keyword
  | .arg => .arg
  | .env => .env

/-- The declaring instruction of a keyword. -/
def ofKeyword? : Keyword → Option Declarer
  | .arg => some .arg
  | .env => some .env
  | _ => none

end Declarer

/-- A variable that a line declares. -/
structure Declaration where
  name : List Char
  /-- The value without quotes; `none` for a name alone. -/
  value : Option (List Char)
  /-- The offset of the name in the logical text. -/
  start : Nat
  /-- The offset where the text of the declaration ends. -/
  extent : Nat
  /-- The number of the logical line. -/
  line : Nat
  scope : Nat
  declarer : Declarer
deriving DecidableEq

namespace Declaration

/-- The offset behind the name. -/
def stop (d : Declaration) : Nat := d.start + d.name.length

/-- An offset on the name, its end included. -/
def onName (d : Declaration) (offset : Int) : Bool :=
  (d.start : Int) ≤ offset && offset ≤ (d.stop : Int)

/-! ## What an instruction declares -/

/-- A name in arguments: its offset there, the name and its value. -/
structure Named where
  start : Nat
  name : List Char
  value : Option (List Char)
deriving DecidableEq

/-- The names of items. -/
def Named.ofItems (items : List Item) : List Named :=
  (Item.located 0 items).map fun (start, i) => ⟨start, i.name, i.value.map valueText⟩

/-- The names that arguments declare. Arguments that do not fit the grammar declare nothing. -/
def named (declarer : Declarer) (arguments : List Char) : List Named :=
  match declarer with
  | .arg =>
    match ArgForm.parse arguments with
    | .ok form => Named.ofItems form.items
    | .error _ => []
  | .env =>
    match EnvForm.parse arguments with
    | .ok (.rest lead name _ text _) => [⟨lead.length, name, some text⟩]
    | .ok (.pairs items _) => Named.ofItems items
    | .error _ => []

/-- Lets each declaration cover the text up to the next one, and the last one up to `stop`. -/
def withExtents (stop : Nat) : List Declaration → List Declaration
  | [] => []
  | [d] => [{ d with extent := stop }]
  | d :: next :: more => { d with extent := next.start } :: withExtents stop (next :: more)

/-- The declaration of a name in the arguments of a command. It covers just the name. -/
def ofNamed (c : Command) (declarer : Declarer) (line scope : Nat) (n : Named) : Declaration where
  name := n.name
  value := n.value
  start := c.argumentsStart + n.start
  extent := c.argumentsStart + n.start + n.name.length
  line := line
  scope := scope
  declarer := declarer

/-- What a command on a line declares in a scope. -/
def ofCommand (c : Command) (line scope : Nat) : List Declaration :=
  match c.known?.bind Declarer.ofKeyword? with
  | none => []
  | some declarer =>
    withExtents c.argumentsEnd <|
      (named declarer c.arguments).map (ofNamed c declarer line scope)

end Declaration

end Dockerfile
