import Dockerfile.Keyword
import Dockerfile.Line.Logical
import Dockerfile.Syntax.Directive

/-!
# Directives

A directive is a comment of the form `#key=value` at the top of a Dockerfile. Only the `escape`
directive is known. It chooses the character that continues a line, which is the backslash if
nothing else is chosen.

The lines at the top are watched one after the other. They stay open to directives across blank
lines and `escape` directives, and are closed for good by the first line of another kind. The first
directive with a valid value decides; later ones and those after the closing have no effect.
-/

namespace Dockerfile

/-! ## Escape characters -/

/-- The characters that can continue a line. -/
inductive Escape
  | backslash
  | backtick
deriving DecidableEq

namespace Escape

/-- The character. -/
def char : Escape → Char
  | .backslash => '\\'
  | .backtick => '\x60'

/-- The escape character as a text of its own. -/
def text (e : Escape) : List Char := [e.char]

/-- The escape character that a text consists of. -/
def ofText? (s : List Char) : Option Escape :=
  if s = text .backslash then some .backslash
  else if s = text .backtick then some .backtick
  else none

end Escape

/-! ## Directives -/

/-- A key and its value. -/
structure Directive where
  /-- The key as it is written. -/
  key : List Char
  value : List Char
  /-- The offset of the key in the logical text. -/
  keyStart : Nat
deriving DecidableEq

namespace Directive

/-- The directive that a text has the form of. Its key need not be a known one. -/
def parse (s : List Char) : Option Directive :=
  match DirectiveForm.parse s with
  | .ok form => some ⟨form.key, form.value, form.keyStart⟩
  | .error _ => none

/-- The offset behind the key. -/
def keyEnd (d : Directive) : Nat := d.keyStart + d.key.length

/-- The key in small letters. A key has no letters beyond ASCII. -/
def canonical (d : Directive) : List Char := lowerCase d.key

/-- The directive is an `escape` directive. -/
def recognized (d : Directive) : Bool := d.canonical == escapeName

/-- The escape character that the directive chooses. Blanks around it do not count. -/
def escape? (d : Directive) : Option Escape :=
  if d.recognized then Escape.ofText? (trim d.value) else none

/-- An offset on the key, its end included. -/
def onKey (d : Directive) (offset : Int) : Bool :=
  (d.keyStart : Int) ≤ offset && offset ≤ (d.keyEnd : Int)

end Directive

/-! ## The top of a document -/

/-- What is known after some lines: the directives seen, the escape character they chose, and
whether a further line can still be a directive. -/
structure Header where
  directives : List Directive
  chosen : Option Escape
  isOpen : Bool
deriving DecidableEq

namespace Header

/-- Before the first line. -/
def initial : Header := ⟨[], none, true⟩

/-- The escape character in force. -/
def escape (h : Header) : Escape := h.chosen.getD .backslash

/-- Watches the next logical text. The answer is the directive that it is, if it is one. -/
def feed (h : Header) (s : List Char) : Option Directive × Header :=
  if !h.isOpen || isAllBlank s then (none, h)
  else
    match (Directive.parse s).filter (·.recognized) with
    | none => (none, { h with isOpen := false })
    | some d =>
      (some d, { h with directives := h.directives ++ [d], chosen := h.chosen <|> d.escape? })

end Header

end Dockerfile
