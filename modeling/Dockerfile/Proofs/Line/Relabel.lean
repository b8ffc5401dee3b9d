import Dockerfile.Line.Continuation

/-!
# What joining does not look at

Lines are joined by their contents and by whether they have an ending. All else that a line carries,
its number, its offset and the kind of its ending, is only handed on to the fragments. So a change
of it commutes with everything that is made of the lines.

* `Relabel` — such a change, of lines and of the fragments made of them
* `foldLines_relabel` — what `foldLines` makes of lines changed is what it makes of them, changed
-/

namespace Dockerfile

/-- A change of lines that keeps their contents and whether they have an ending, and the change of
the fragments that goes with it. -/
structure Relabel where
  line : PhysicalLine → PhysicalLine
  fragment : Fragment → Fragment
  content_line : ∀ l, (line l).content = l.content
  ending_line : ∀ l, (line l).ending = .none ↔ l.ending = .none
  fragmentOf_line : ∀ start p, LogicalLine.fragmentOf start { p with line := line p.line }
    = fragment (LogicalLine.fragmentOf start p)

/-- The piece on its line changed. -/
def Piece.relabel (r : Relabel) (p : Piece) : Piece := { p with line := r.line p.line }

/-- The logical line on its fragments changed. Its number and its text stay. -/
def LogicalLine.relabel (r : Relabel) (l : LogicalLine) : LogicalLine :=
  { l with first := r.fragment l.first, more := l.more.map r.fragment }

variable {r : Relabel}

/-! ## One logical line -/

namespace PhysicalLine

theorem isComment_relabel (l : PhysicalLine) : (r.line l).isComment = l.isComment := by
  rw [isComment, isComment, r.content_line]

theorem beforeMarker?_relabel (escape : List Char) (l : PhysicalLine) :
    (r.line l).beforeMarker? escape = l.beforeMarker? escape := by
  simp only [beforeMarker?, r.ending_line, r.content_line]

theorem whole_relabel (l : PhysicalLine) : (r.line l).whole = l.whole.relabel r := by
  rw [whole, r.content_line]
  rfl

end PhysicalLine

theorem continued_relabel (escape : List Char) (ls : List PhysicalLine) :
    continued escape (ls.map r.line)
      = ((continued escape ls).1.map (Piece.relabel r), (continued escape ls).2.map r.line) := by
  induction ls with
  | nil => rfl
  | cons l ls ih =>
    rw [List.map_cons, continued, continued, l.isComment_relabel, l.beforeMarker?_relabel,
      l.whole_relabel, ih]
    split
    · rfl
    · split <;> rfl

theorem join_relabel (escape : List Char) (l : PhysicalLine) (ls : List PhysicalLine) :
    join escape (r.line l) (ls.map r.line)
      = ((join escape l ls).1.relabel r, (join escape l ls).2.1.map (Piece.relabel r),
        (join escape l ls).2.2.map r.line) := by
  rw [join, join, l.isComment_relabel, l.beforeMarker?_relabel, l.whole_relabel,
    continued_relabel]
  split
  · rfl
  · split <;> rfl

namespace LogicalLine

theorem fragmentsOf_relabel (start : Nat) (ps : List Piece) :
    fragmentsOf start (ps.map (Piece.relabel r)) = (fragmentsOf start ps).map r.fragment := by
  induction ps generalizing start with
  | nil => rfl
  | cons p ps ih =>
    rw [List.map_cons, fragmentsOf, fragmentsOf, List.map_cons, Piece.relabel, r.fragmentOf_line,
      ih]

theorem ofPieces_relabel (index : Nat) (p : Piece) (more : List Piece) :
    ofPieces index (p.relabel r) (more.map (Piece.relabel r))
      = (ofPieces index p more).relabel r := by
  have hkept : (more.map (Piece.relabel r)).flatMap Piece.kept = more.flatMap Piece.kept := by
    rw [List.flatMap_map]
    rfl
  unfold ofPieces relabel
  rw [hkept, Piece.relabel, r.fragmentOf_line, fragmentsOf_relabel]

end LogicalLine

/-! ## Many logical lines -/

/-- **What is made of lines changed is what is made of them, changed**, if one step makes it so. -/
theorem foldLines_relabel {σ α : Type} {escape : σ → List Char} {step : σ → LogicalLine → α × σ}
    {change : α → α} (hstep : ∀ s l, step s (l.relabel r) = (change (step s l).1, (step s l).2))
    (index : Nat) (s : σ) (ls : List PhysicalLine) :
    foldLines escape step index s (ls.map r.line)
      = ((foldLines escape step index s ls).1.map change,
        (foldLines escape step index s ls).2) := by
  fun_induction foldLines escape step index s ls with
  | case1 => simp [foldLines]
  | case2 index s l rest joined stepped more ih =>
    rw [List.map_cons, foldLines]
    simp only [join_relabel, LogicalLine.ofPieces_relabel, hstep]
    rw [ih]
    rfl

end Dockerfile
