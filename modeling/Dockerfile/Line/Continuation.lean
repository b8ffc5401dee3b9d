import Dockerfile.Line.Physical
import Dockerfile.Line.Logical

/-!
# Continuation

A line that has an ending is continued by the next one if its content ends in a marker: the escape
text and any blanks after it. The marker and the ending do not belong to the logical text. A
comment line is never continued, and comment lines between the lines of a continuation are dropped.

The escape text is looked up at the start of each logical line and then stays as it is for that
line. What happens between two logical lines is up to the caller: `foldLines` hands each one to
a step function, which may change the state that the escape text is read from.

## Termination

`continued` goes along the list of physical lines. `foldLines` goes on with the lines left over
by a logical line, which are fewer, since a logical line takes at least one.
-/

namespace Dockerfile

/-! ## Markers -/

/-- The text is the escape text and then blanks. -/
def isMarker (escape : List Char) (s : List Char) : Bool :=
  escape.isPrefixOf s && isAllBlank (s.drop escape.length)

/-- What stands in front of the leftmost marker that reaches to the end of a content. -/
def beforeMarker? (escape : List Char) : List Char → Option (List Char)
  | [] => if isMarker escape [] then some [] else none
  | c :: rest =>
    if isMarker escape (c :: rest) then some []
    else (beforeMarker? escape rest).map (c :: ·)

/-! ## Pieces -/

/-- A physical line and the part of its content that belongs to the logical text. -/
structure Piece where
  line : PhysicalLine
  kept : List Char
deriving DecidableEq

namespace PhysicalLine

/-- The line is a comment line. -/
def isComment (l : PhysicalLine) : Bool := isCommentText l.content

/-- The whole line as one piece. -/
def whole (l : PhysicalLine) : Piece := ⟨l, l.content⟩

/-- The content in front of the continuation marker, or `none` if the line is not continued. The
last line of a text has no ending and is never continued. -/
def beforeMarker? (escape : List Char) (l : PhysicalLine) : Option (List Char) :=
  if l.ending = .none then none else Dockerfile.beforeMarker? escape l.content

end PhysicalLine

/-- The pieces of the lines that continue a logical line, and the lines after it. -/
def continued (escape : List Char) : List PhysicalLine → List Piece × List PhysicalLine
  | [] => ([], [])
  | l :: rest =>
    if l.isComment then continued escape rest
    else
      match l.beforeMarker? escape with
      | none => ([l.whole], rest)
      | some kept =>
        let more := continued escape rest
        (⟨l, kept⟩ :: more.1, more.2)

theorem continued_length_le (escape : List Char) (ls : List PhysicalLine) :
    (continued escape ls).2.length ≤ ls.length := by
  induction ls with
  | nil => simp [continued]
  | cons l rest ih =>
    simp only [continued]
    split
    · simp; omega
    · split
      · simp
      · simp; omega

/-- The first piece, the further pieces and the lines after the logical line that starts with the
line `l`. -/
def join (escape : List Char) (l : PhysicalLine) (rest : List PhysicalLine) :
    Piece × List Piece × List PhysicalLine :=
  if l.isComment then (l.whole, [], rest)
  else
    match l.beforeMarker? escape with
    | none => (l.whole, [], rest)
    | some kept => (⟨l, kept⟩, continued escape rest)

theorem join_length_le (escape : List Char) (l : PhysicalLine) (rest : List PhysicalLine) :
    (join escape l rest).2.2.length ≤ rest.length := by
  unfold join
  split
  · simp
  · split
    · simp
    · exact continued_length_le escape rest

/-! ## Logical lines -/

namespace LogicalLine

/-- The fragment of a piece that starts at `logicalStart` of the logical text. -/
def fragmentOf (logicalStart : Nat) (p : Piece) : Fragment where
  line := p.line.index
  startColumn := 0
  endColumn := p.kept.length
  offset := p.line.start
  logicalStart := logicalStart

/-- The fragments of pieces, the first of them starting at `logicalStart`. -/
def fragmentsOf (logicalStart : Nat) : List Piece → List Fragment
  | [] => []
  | p :: more => fragmentOf logicalStart p :: fragmentsOf (logicalStart + p.kept.length) more

/-- The logical line that pieces make up. -/
def ofPieces (index : Nat) (p : Piece) (more : List Piece) : LogicalLine where
  index := index
  text := p.kept ++ more.flatMap Piece.kept
  first := fragmentOf 0 p
  more := fragmentsOf p.kept.length more

end LogicalLine

variable {σ α : Type}

/-- Goes through the logical lines in order. Each is joined under the escape text of the state at
its start and handed to `step`, which answers an item and the next state. -/
def foldLines (escape : σ → List Char) (step : σ → LogicalLine → α × σ) (index : Nat) (s : σ) :
    List PhysicalLine → List α × σ
  | [] => ([], s)
  | l :: rest =>
    let joined := join (escape s) l rest
    let stepped := step s (.ofPieces index joined.1 joined.2.1)
    let more := foldLines escape step (index + 1) stepped.2 joined.2.2
    (stepped.1 :: more.1, more.2)
termination_by ls => ls.length
decreasing_by exact Nat.lt_succ_of_le (join_length_le _ _ _)

/-- The logical lines of a text under one escape text that never changes. -/
def LogicalLine.ofText (escape : List Char) (s : List Char) : List LogicalLine :=
  (foldLines (fun _ : Unit => escape) (fun _ l => (l, ())) 0 () (PhysicalLine.ofText s)).1

end Dockerfile
