import Dockerfile.Directive
import Dockerfile.Line.Continuation
import Dockerfile.Proofs.Text.LetterCase

/-!
# Lines in lower case

Line endings, comment marks and escape characters are no letters. So a text in lower case is cut
into the same lines and joined to the same logical lines, in lower case.

* `PhysicalLine.ofText_lowerCase` — the physical lines
* `foldLines_small` — the logical lines, and what is made of them
-/

namespace Dockerfile

/-! ## Physical lines -/

/-- The line in lower case. -/
def RawLine.small (l : RawLine) : RawLine := { l with content := lowerCase l.content }

/-- The line in lower case. -/
def PhysicalLine.small (l : PhysicalLine) : PhysicalLine :=
  { l with content := lowerCase l.content }

namespace RawLine

theorem prepend_small (c : Char) (ls : List RawLine) :
    prepend c.toLower (ls.map small) = (prepend c ls).map small := by
  cases ls <;> rfl

theorem length_text_small (l : RawLine) : l.small.text.length = l.text.length := by
  simp [text, small]

theorem ofText_lowerCase (s : List Char) : ofText (lowerCase s) = (ofText s).map small := by
  have hlf : '\n'.isAlpha = false := by decide
  have hcr : '\r'.isAlpha = false := by decide
  fun_induction ofText s with
  | case1 => rfl
  | case2 rest ih =>
    show ofText ('\r' :: '\n' :: lowerCase rest) = _
    rw [ofText, ih]
    rfl
  | case3 rest hne ih =>
    show ofText ('\r' :: lowerCase rest) = _
    rw [ofText, ih]
    · rfl
    · -- the line feed that would make one ending of the two is no letter
      intro rest' hrest
      obtain ⟨c, more, rfl, hc, -⟩ := List.map_eq_cons_iff.mp hrest
      exact hne more (by rw [(toLower_eq_iff hlf).mp hc])
  | case4 rest ih =>
    show ofText ('\n' :: lowerCase rest) = _
    rw [ofText, ih]
    rfl
  | case5 c rest hcrlf hne hlf' ih =>
    rw [lowerCase_cons, ofText, ih, prepend_small]
    · exact fun _ hc _ => hne ((toLower_eq_iff hcr).mp hc)
    · exact fun hc => hne ((toLower_eq_iff hcr).mp hc)
    · exact fun hc => hlf' ((toLower_eq_iff hlf).mp hc)

end RawLine

namespace PhysicalLine

theorem number_small (index start : Nat) (ls : List RawLine) :
    number index start (ls.map RawLine.small) = (number index start ls).map small := by
  induction ls generalizing index start with
  | nil => rfl
  | cons l ls ih =>
    rw [List.map_cons, number, number, List.map_cons, RawLine.length_text_small, ih]
    rfl

/-- **The lines of a text in lower case** are its lines in lower case. -/
theorem ofText_lowerCase (s : List Char) : ofText (lowerCase s) = (ofText s).map small := by
  rw [ofText, RawLine.ofText_lowerCase, number_small]
  rfl

theorem isComment_small (l : PhysicalLine) : l.small.isComment = l.isComment :=
  isCommentText_lowerCase l.content

end PhysicalLine

/-! ## Logical lines -/

/-- The piece in lower case. -/
def Piece.small (p : Piece) : Piece := ⟨p.line.small, lowerCase p.kept⟩

/-- The logical line in lower case. -/
def LogicalLine.small (l : LogicalLine) : LogicalLine := { l with text := lowerCase l.text }

theorem Escape.isAlpha_char (e : Escape) : e.char.isAlpha = false := by
  cases e <;> decide

section Joining

variable (e : Escape)

theorem isMarker_lowerCase (s : List Char) :
    isMarker e.text (lowerCase s) = isMarker e.text s := by
  cases s with
  | nil => rfl
  | cons c s =>
    rw [Bool.eq_iff_iff]
    simp [isMarker, Escape.text, eq_comm (a := e.char), toLower_eq_iff e.isAlpha_char]

theorem beforeMarker?_lowerCase (s : List Char) :
    beforeMarker? e.text (lowerCase s) = (beforeMarker? e.text s).map lowerCase := by
  induction s with
  | nil => cases e <;> rfl
  | cons c s ih =>
    have hmarker := isMarker_lowerCase e (c :: s)
    rw [lowerCase_cons] at hmarker ⊢
    rw [beforeMarker?, beforeMarker?, hmarker, ih]
    split
    · rfl
    · cases beforeMarker? e.text s <;> rfl

namespace PhysicalLine

theorem beforeMarker?_small (l : PhysicalLine) :
    l.small.beforeMarker? e.text = (l.beforeMarker? e.text).map lowerCase := by
  show (if l.ending = .none then none else Dockerfile.beforeMarker? e.text (lowerCase l.content))
    = _
  rw [beforeMarker?, beforeMarker?_lowerCase]
  split <;> rfl

end PhysicalLine

theorem continued_small (ls : List PhysicalLine) : continued e.text (ls.map PhysicalLine.small)
    = ((continued e.text ls).1.map Piece.small,
      (continued e.text ls).2.map PhysicalLine.small) := by
  induction ls with
  | nil => rfl
  | cons l ls ih =>
    rw [List.map_cons, continued, continued, l.isComment_small, l.beforeMarker?_small, ih]
    split
    · rfl
    · cases l.beforeMarker? e.text <;> rfl

theorem join_small (l : PhysicalLine) (ls : List PhysicalLine) :
    join e.text l.small (ls.map PhysicalLine.small)
      = ((join e.text l ls).1.small, (join e.text l ls).2.1.map Piece.small,
        (join e.text l ls).2.2.map PhysicalLine.small) := by
  rw [join, join, l.isComment_small, l.beforeMarker?_small, continued_small]
  split
  · rfl
  · cases l.beforeMarker? e.text <;> rfl

end Joining

namespace LogicalLine

theorem fragmentOf_small (start : Nat) (p : Piece) :
    fragmentOf start p.small = fragmentOf start p := by
  simp [fragmentOf, Piece.small, PhysicalLine.small]

theorem fragmentsOf_small (start : Nat) (ps : List Piece) :
    fragmentsOf start (ps.map Piece.small) = fragmentsOf start ps := by
  induction ps generalizing start with
  | nil => rfl
  | cons p ps ih =>
    rw [List.map_cons, fragmentsOf, fragmentsOf, fragmentOf_small, Piece.small, length_lowerCase,
      ih]

theorem ofPieces_small (index : Nat) (p : Piece) (more : List Piece) :
    ofPieces index p.small (more.map Piece.small) = (ofPieces index p more).small := by
  have hkept : (more.map Piece.small).flatMap Piece.kept = lowerCase (more.flatMap Piece.kept) := by
    rw [List.flatMap_map, lowerCase, List.map_flatMap]
    rfl
  rw [ofPieces, hkept, fragmentOf_small, Piece.small, length_lowerCase, fragmentsOf_small, small,
    ofPieces, lowerCase_append]

end LogicalLine

/-- **What is made of lines in lower case is what is made of them, changed**, if one step makes it
so and the escape characters on the way are the same. -/
theorem foldLines_small {σ α : Type} {escape : σ → Escape} {step : σ → LogicalLine → α × σ}
    {change : α → α} {changed : σ → σ} (hescape : ∀ s, escape (changed s) = escape s)
    (hstep : ∀ s l, step (changed s) l.small = (change (step s l).1, changed (step s l).2))
    (index : Nat) (s : σ) (ls : List PhysicalLine) :
    foldLines (fun s => (escape s).text) step index (changed s) (ls.map PhysicalLine.small)
      = ((foldLines (fun s => (escape s).text) step index s ls).1.map change,
        changed (foldLines (fun s => (escape s).text) step index s ls).2) := by
  fun_induction foldLines (fun s => (escape s).text) step index s ls with
  | case1 => simp [foldLines]
  | case2 index s l rest joined stepped more ih =>
    rw [List.map_cons, foldLines]
    simp only [hescape, join_small, LogicalLine.ofPieces_small, hstep]
    rw [ih]
    rfl

end Dockerfile
