import Dockerfile.Syntax.Terminal

/-!
# Parse trees

What the line grammars make of a text: nodes for the rules, tokens for the words. A token knows
where it starts; a node spans all that its rule took, the blanks, `#` and `=` in it included.
-/

namespace Dockerfile

/-- The rules that are nodes of a tree. -/
inductive Rule
  | start
  | argBare
  | argEquals
  | envSpace
  | envEquals
  | value
deriving DecidableEq

/-- The name that a rule goes by in an outline. -/
def Rule.name : Rule → String
  | .start => "start"
  | .argBare => "arg_bare"
  | .argEquals => "arg_equals"
  | .envSpace => "env_space"
  | .envEquals => "env_equals"
  | .value => "value"

/-- A word of the text and the offset where it starts. -/
structure Token where
  terminal : Terminal
  text : List Char
  start : Nat
deriving DecidableEq

/-- The offset behind the last character of the token. -/
def Token.stop (t : Token) : Nat := t.start + t.text.length

/-- A tree: a token, or a node with its rule, its span and what stands under it. -/
inductive ParseTree
  | token (t : Token)
  | node (rule : Rule) (start stop : Nat) (children : List ParseTree)

namespace ParseTree

/-- The trees under a node; a token has none. -/
def children : ParseTree → List ParseTree
  | .token _ => []
  | .node _ _ _ children => children

/-- The rule of a node. -/
def rule? : ParseTree → Option Rule
  | .token _ => none
  | .node rule _ _ _ => some rule

/-- The tokens directly under a node, in order. -/
def tokens (t : ParseTree) : List Token :=
  t.children.filterMap fun
    | .token t => some t
    | .node .. => none

/-- The nodes directly under a node, in order. -/
def nodes (t : ParseTree) : List ParseTree := t.children.filter (·.rule?.isSome)

/-- The first node of a rule directly under a node. -/
def child? (t : ParseTree) (rule : Rule) : Option ParseTree :=
  t.children.find? (·.rule? == some rule)

/-- The token number `i`, counted from zero, among those of one terminal directly under a node. -/
def token? (t : ParseTree) (terminal : Terminal) (i : Int) : Option Token :=
  if 0 ≤ i then (t.tokens.filter (·.terminal == terminal))[i.toNat]? else none

/-- The text of a value: its tokens put together, quoted strings without their quotes. -/
def valueText (t : ParseTree) : List Char :=
  t.tokens.flatMap fun word =>
    match word.terminal with
    | .doubleQuoted => word.text.tail.dropLast
    | .singleQuoted => word.text.tail.dropLast
    | _ => word.text

end ParseTree

end Dockerfile
