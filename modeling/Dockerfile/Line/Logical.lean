import Dockerfile.Text.Blank

/-!
# Logical lines and positions

An instruction may run over several physical lines. The text that results when its pieces are put
together is a logical line; each piece is remembered as a fragment, so that a place on the screen
(a physical line and a character) and an offset in the logical text can be told from each other.

A place at the very end of a fragment belongs to it. An offset between two fragments belongs to
the later one. So the place after a word still finds the word, and a place behind the end of a
fragment, inside a continuation marker, finds nothing.
-/

namespace Dockerfile

/-- A place in a text: a physical line and a character of it, both counted from zero. Places
outside the text, negative ones too, are allowed and show nothing. -/
structure Position where
  line : Int
  character : Int
deriving DecidableEq

/-- The piece of a logical line that comes from one physical line: its columns there, the offset
in the whole text where it starts, and the offset in the logical text where it starts. -/
structure Fragment where
  line : Nat
  startColumn : Nat
  endColumn : Nat
  offset : Nat
  logicalStart : Nat
deriving DecidableEq

namespace Fragment

/-- The offset in the logical text of a column of the fragment, its end included. -/
def offsetAt (f : Fragment) (column : Int) : Option Nat :=
  if (f.startColumn : Int) ≤ column ∧ column ≤ f.endColumn then
    some (f.logicalStart + (column.toNat - f.startColumn))
  else none

/-- The place of an offset in the logical text at or behind the start of the fragment. -/
def placeOf (f : Fragment) (offset : Nat) : Nat × Nat :=
  (f.line, f.startColumn + (offset - f.logicalStart))

end Fragment

/-- A numbered logical line. It has at least one fragment. -/
structure LogicalLine where
  index : Nat
  text : List Char
  first : Fragment
  more : List Fragment
deriving DecidableEq

/-- A text whose first non-blank character is `#`. -/
def isCommentText (s : List Char) : Bool := (skipBlanks s).head? == some '#'

namespace LogicalLine

/-- All fragments, in the order of the text. -/
def fragments (l : LogicalLine) : List Fragment := l.first :: l.more

/-- The physical line that the logical line starts on. -/
def firstLine (l : LogicalLine) : Nat := l.first.line

/-- The physical line of the last fragment. -/
def lastLine (l : LogicalLine) : Nat := (l.fragments.getLast (by simp [fragments])).line

/-- The line holds blanks only. -/
def isBlank (l : LogicalLine) : Bool := isAllBlank l.text

/-- The line has the form of a comment. A directive has it, too. -/
def isComment (l : LogicalLine) : Bool := isCommentText l.text

/-- The offset in the logical text of a place, or `none` if the place is on none of the fragments
or behind the end of its fragment. -/
def offsetAt (l : LogicalLine) (p : Position) : Option Nat :=
  (l.fragments.find? fun f => (f.line : Int) == p.line).bind (·.offsetAt p.character)

/-- The place of an offset in the logical text, or `none` if the offset is out of range. -/
def positionOf (l : LogicalLine) (offset : Int) : Option (Nat × Nat) :=
  if 0 ≤ offset ∧ offset ≤ l.text.length then
    (l.fragments.reverse.find? fun f => f.logicalStart ≤ offset.toNat).map (·.placeOf offset.toNat)
  else none

end LogicalLine

end Dockerfile
