import Dockerfile.Text.Numeral
import Dockerfile.Syntax.ParseTree

/-!
# Outlines of parse trees

A tree is shown one row a node or token, in the order of the text. A row starts with the span of
its node and is indented by the depth of the node; a token stands one step deeper than its node
and repeats the node's span. The name of a terminal takes at most ten columns. A token whose row
would be wider than the screen has its text cut and ended by three dots.
-/

namespace Dockerfile

/-! ## Rows -/

/-- What a row shows: a node by its rule, or a token. -/
inductive RowItem
  | rule (r : Rule)
  | token (t : Token)
deriving DecidableEq

/-- A row together with the depth and the span of its node. -/
structure Row where
  level : Nat
  start : Nat
  stop : Nat
  item : RowItem
deriving DecidableEq

namespace ParseTree

mutual

/-- The rows of a tree at a depth. -/
def rows (level : Nat) : ParseTree → List Row
  | .token t => [⟨level, t.start, t.stop, .token t⟩]
  | .node rule start stop children =>
    ⟨level, start, stop, .rule rule⟩ :: childRows level start stop children

/-- The rows of what stands under a node. -/
def childRows (level start stop : Nat) : List ParseTree → List Row
  | [] => []
  | .token t :: more => ⟨level, start, stop, .token t⟩ :: childRows level start stop more
  | .node rule start' stop' children :: more =>
    ⟨level + 1, start', stop', .rule rule⟩ :: childRows (level + 1) start' stop' children
      ++ childRows level start stop more

end

end ParseTree

/-! ## Layout -/

/-- How many columns the name of a terminal may take. -/
def terminalColumns : Nat := 10

/-- `n` copies of an indent. -/
def indentation (indent : List Char) (n : Nat) : List Char := (List.replicate n indent).flatten

/-- The text in front of a place. A negative place is counted from the end, and there is nothing in
front of one that would come before the beginning. -/
def upTo (place : Int) (s : List Char) : List Char :=
  s.take (if place < 0 then s.length + place else place).toNat

namespace Row

/-- The span and the indentation that a row starts with. -/
def lead (indent : List Char) (r : Row) : List Char :=
  padLeft 4 (decimal r.start) ++ ' ' :: (padLeft 3 (decimal r.stop)
    ++ indentation indent (r.level + 1))

/-- The name of a terminal cut to the columns it may take, and how many columns too wide the row is
with it, if it is `overflow` columns too wide with the whole name. -/
def cutName (name : List Char) (overflow : Int) : List Char × Int :=
  if terminalColumns < name.length then
    let excess := name.length - terminalColumns
    (upTo (-excess) name, overflow - excess)
  else (name, overflow)

/-- The text of a token whose row is `overflow` columns too wide, cut to make room for three dots if
it does not fit already. -/
def cutText (overflow : Int) (text : List Char) : List Char :=
  if 0 < overflow then upTo (-(overflow + 3)) text ++ "...".toList else text

/-- A row as it is shown. -/
def line (indent : List Char) (columns : Nat) (r : Row) : List Char :=
  match r.item with
  | .rule rule => r.lead indent ++ rule.name.toList
  | .token t =>
    let name := t.terminal.name.toList
    let width := (r.lead indent).length + indent.length + t.text.length + name.length + 2
    let (shown, overflow) := cutName name (width - columns)
    r.lead indent ++ indent ++ ' ' :: (shown ++ ' ' :: cutText overflow t.text)

end Row

/-- The lines that a tree at a depth is shown in. -/
def ParseTree.lines (level : Nat) (indent : List Char) (columns : Nat) (t : ParseTree) :
    List (List Char) :=
  (t.rows level).map (Row.line indent columns)

/-- The rows of a tree, one a line, without a line feed at the end. -/
def ParseTree.outline (indent : List Char) (columns : Nat) (t : ParseTree) : List Char :=
  List.intercalate ['\n'] (t.lines 0 indent columns)

end Dockerfile
