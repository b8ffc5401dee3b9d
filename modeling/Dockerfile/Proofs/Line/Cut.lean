import Dockerfile.Directive
import Dockerfile.Proofs.Line.Comments

/-!
# Cutting a line

One line can be written as several: it is broken at some places, and behind each piece but the last
come the escape character, blanks, an ending and possibly comment lines. Reading puts the pieces
together again, whatever they are, as long as no piece behind the first looks like a comment.

* `beforeMarker?_append_marker` — the marker behind a piece is found, even if the piece ends in one
* `continued_lines` — the lines of a cut are read as its pieces
* `getElem?_fragmentsOf_joined` — the fragment of each piece
-/

namespace Dockerfile

/-- A break: the piece in front of it, the blanks between the escape character and the ending, the
ending, and the comment lines before the next piece. -/
structure Break where
  piece : List Char
  blanks : List Char
  ending : LineEnding
  comments : List RawLine
  blanks_isAllBlank : isAllBlank blanks = true
  ending_ne_none : ending ≠ .none
  isCommentText_of_mem : ∀ l ∈ comments, isCommentText l.content = true

/-- A way to cut a line. No piece behind the first has the form of a comment. -/
structure Cut where
  breaks : List Break
  last : List Char
  isCommentText_eq_false : ∀ p ∈ (breaks.map Break.piece ++ [last]).tail, isCommentText p = false

/-- The lines from a piece to the next one. -/
def Break.lines (escape : Escape) (b : Break) : List RawLine :=
  ⟨b.piece ++ escape.char :: b.blanks, b.ending⟩ :: b.comments

namespace Cut

variable (c : Cut)

/-- The pieces in order. -/
def pieces : List (List Char) := c.breaks.map Break.piece ++ [c.last]

/-- The content of the line that is cut. -/
def content : List Char := c.pieces.flatten

/-- The lines that are written for the line, which has the given ending. -/
def lines (escape : Escape) (ending : LineEnding) : List RawLine :=
  c.breaks.flatMap (Break.lines escape) ++ [⟨c.last, ending⟩]

/-- How many lines below the first one the piece with the number `i` is. -/
def lineOf (i : Nat) : Nat :=
  (c.breaks.take i).length + ((c.breaks.take i).flatMap Break.comments).length

/-- Where the piece with the number `i` starts in the content. -/
def columnOf (i : Nat) : Nat := (c.pieces.take i).flatten.length

/-- How many lines more there are than before. -/
def added : Nat := c.breaks.length + (c.breaks.flatMap Break.comments).length

end Cut

/-! ## Markers -/

section Markers

variable {e : Char} {blanks : List Char}

/-- **What stands in front of the marker is the piece**, even if the piece ends in the escape
character: an earlier one is followed by the marker, which is not blank. -/
theorem beforeMarker?_append_marker (he : isBlank e = false) (hb : isAllBlank blanks = true)
    (p : List Char) : beforeMarker? [e] (p ++ e :: blanks) = some p := by
  induction p with
  | nil =>
    have hm : isMarker [e] (e :: blanks) = true := by simp [isMarker, hb]
    rw [List.nil_append, beforeMarker?, if_pos hm]
  | cons c p ih =>
    have hm : ¬isMarker [e] (c :: (p ++ e :: blanks)) = true := by
      simp [isMarker, isAllBlank, he]
    rw [List.cons_append, beforeMarker?, if_neg hm, ih, Option.map_some]

/-- A text without a marker has none behind a piece of it either. -/
theorem beforeMarker?_of_append {escape p q : List Char}
    (h : beforeMarker? escape (p ++ q) = none) : beforeMarker? escape q = none := by
  induction p with
  | nil => exact h
  | cons c p ih =>
    rw [List.cons_append, beforeMarker?] at h
    split at h
    · simp at h
    · exact ih (Option.map_eq_none_iff.mp h)

/-- A marker has the escape character at least. -/
theorem length_lt_of_beforeMarker? {s kept : List Char} (h : beforeMarker? [e] s = some kept) :
    kept.length < s.length := by
  induction s generalizing kept with
  | nil => simp [beforeMarker?, isMarker] at h
  | cons c s ih =>
    rw [beforeMarker?] at h
    split at h
    · obtain rfl := Option.some.inj h
      exact Nat.zero_lt_succ _
    · obtain ⟨kept', hk, rfl⟩ := Option.map_eq_some_iff.mp h
      exact Nat.succ_lt_succ (ih hk)

theorem Escape.isBlank_char (e : Escape) : isBlank e.char = false := by
  cases e <;> rfl

theorem Escape.char_ne_hash (e : Escape) : e.char ≠ '#' := by
  cases e <;> decide

end Markers

/-! ## Reading the lines of a cut -/

/-- The pieces as they are read off the lines. -/
def Break.joined (escape : Escape) (index start : Nat) : List Break → RawLine → List Piece
  | [], last => [PhysicalLine.whole { last with index, start }]
  | b :: more, last =>
    ⟨⟨⟨b.piece ++ escape.char :: b.blanks, b.ending⟩, index, start⟩, b.piece⟩ ::
      joined escape (index + (b.lines escape).length)
        (start + ((b.lines escape).flatMap RawLine.text).length) more last

namespace Break

variable {escape : Escape}

/-- Comment lines inside a continuation are passed over. -/
theorem continued_comments {e : List Char} {ls : List RawLine}
    (h : ∀ l ∈ ls, isCommentText l.content = true) (index start : Nat) (rest : List PhysicalLine) :
    continued e (PhysicalLine.number index start ls ++ rest) = continued e rest := by
  induction ls generalizing index start with
  | nil => rfl
  | cons l ls ih =>
    obtain ⟨hl, hls⟩ := List.forall_mem_cons.mp h
    have hc : PhysicalLine.isComment { l with index, start } = true := hl
    rw [PhysicalLine.number, List.cons_append, continued_comment hc, ih hls]

/-- **The lines of a cut are read as its pieces**, and nothing after them is. -/
theorem continued_lines (bs : List Break) (last : RawLine)
    (hp : ∀ p ∈ bs.map piece ++ [last.content], isCommentText p = false)
    (hlast : last.ending = .none ∨ beforeMarker? escape.text last.content = none)
    (index start : Nat) (rest : List PhysicalLine) :
    continued escape.text
        (PhysicalLine.number index start (bs.flatMap (lines escape) ++ [last]) ++ rest)
      = (joined escape index start bs last, rest) := by
  induction bs generalizing index start with
  | nil =>
    -- the last line has no marker, so it ends the continuation
    have hc : PhysicalLine.isComment { last with index, start } = false :=
      hp last.content (by simp)
    have hm : PhysicalLine.beforeMarker? escape.text { last with index, start } = none :=
      PhysicalLine.beforeMarker?_eq_none_iff.mpr hlast
    rw [List.flatMap_nil, List.nil_append, PhysicalLine.number, PhysicalLine.number,
      List.singleton_append, continued_closed hc hm]
    rfl
  | cons b bs ih =>
    obtain ⟨hb, hbs⟩ := List.forall_mem_cons.mp hp
    -- a broken line goes on behind its comment lines, with a cut that has one break less
    have hc : PhysicalLine.isComment
        ⟨⟨b.piece ++ escape.char :: b.blanks, b.ending⟩, index, start⟩ = false := by
      unfold PhysicalLine.isComment
      rw [isCommentText_append_cons escape.isBlank_char escape.char_ne_hash, hb]
    have hm : PhysicalLine.beforeMarker? escape.text
        ⟨⟨b.piece ++ escape.char :: b.blanks, b.ending⟩, index, start⟩ = some b.piece := by
      unfold PhysicalLine.beforeMarker?
      rw [if_neg b.ending_ne_none]
      exact beforeMarker?_append_marker escape.isBlank_char b.blanks_isAllBlank b.piece
    rw [List.flatMap_cons, List.append_assoc, PhysicalLine.number_append, List.append_assoc, lines,
      PhysicalLine.number, List.cons_append, continued_marked hc hm,
      continued_comments b.isCommentText_of_mem, ih hbs]
    rfl

theorem flatMap_kept_joined (index start : Nat) (bs : List Break) (last : RawLine) :
    (joined escape index start bs last).flatMap Piece.kept
      = (bs.map piece ++ [last.content]).flatten := by
  induction bs generalizing index start with
  | nil => rfl
  | cons b bs ih =>
    rw [joined, List.flatMap_cons, ih]
    rfl

/-- **The fragment of each piece**: its line, its end, and where it starts in the logical text. -/
theorem getElem?_fragmentsOf_joined (offset index start i : Nat) (bs : List Break)
    (last : RawLine) :
    ((LogicalLine.fragmentsOf offset (joined escape index start bs last))[i]?).map
        (fun f => (f.line, f.endColumn, f.logicalStart))
      = ((bs.map piece ++ [last.content])[i]?).map fun p =>
          (index + ((bs.take i).length + ((bs.take i).flatMap comments).length), p.length,
            offset + ((bs.map piece ++ [last.content]).take i).flatten.length) := by
  induction bs generalizing offset index start i with
  | nil =>
    cases i with
    | zero => rfl
    | succ i => rfl
  | cons b bs ih =>
    cases i with
    | zero => rfl
    | succ i =>
      rw [joined, LogicalLine.fragmentsOf, List.getElem?_cons_succ, ih]
      simp only [List.map_cons, List.cons_append, List.getElem?_cons_succ, List.take_succ_cons,
        List.flatMap_cons, List.flatten_cons, List.length_append, lines, List.length_cons,
        Nat.add_assoc]
      refine congrArg (fun g => Option.map g _) (funext fun p => ?_)
      congr 1
      omega

end Break

namespace Cut

variable (c : Cut) {escape : Escape} {ending : LineEnding}

theorem length_lines : (c.lines escape ending).length = c.added + 1 := by
  unfold lines added
  rw [List.length_append, List.length_singleton]
  induction c.breaks with
  | nil => rfl
  | cons b bs ih =>
    simp only [List.flatMap_cons, List.length_append, Break.lines, List.length_cons] at ih ⊢
    omega

/-- The lines of a cut are no shorter than the line that is cut. -/
theorem length_text_le : c.content.length + ending.text.length
    ≤ ((c.lines escape ending).flatMap RawLine.text).length := by
  unfold content pieces lines
  induction c.breaks with
  | nil => simp [RawLine.text]
  | cons b bs ih =>
    simp only [List.map_cons, List.cons_append, List.flatten_cons, List.length_append,
      List.flatMap_cons, List.flatMap_append, Break.lines, RawLine.text, List.length_cons] at ih ⊢
    omega

theorem lineOf_le (k : Nat) : c.lineOf k ≤ c.added := by
  have hsplit := List.take_append_drop k c.breaks
  unfold lineOf added
  conv => rhs; rw [← hsplit, List.flatMap_append, List.length_append, List.length_append]
  omega

/-- A piece is inside the content. -/
theorem columnOf_add_le {k : Nat} {p : List Char} (hp : c.pieces[k]? = some p) :
    c.columnOf k + p.length ≤ c.content.length := by
  obtain ⟨hk, rfl⟩ := List.getElem?_eq_some_iff.mp hp
  have hsplit := List.take_append_drop k c.pieces
  rw [List.drop_eq_getElem_cons hk] at hsplit
  have hlength := congrArg (fun ps => ps.flatten.length) hsplit
  simp only [List.flatten_append, List.flatten_cons, List.length_append] at hlength
  unfold columnOf content
  omega

/-- No piece of a line that is no comment looks like one. -/
theorem isCommentText_of_mem_pieces (h : isCommentText c.content = false) {p : List Char}
    (hp : p ∈ c.pieces) : isCommentText p = false := by
  obtain ⟨first, more, hpieces⟩ : ∃ first more, c.pieces = first :: more :=
    List.exists_cons_of_ne_nil (by simp [pieces])
  rw [hpieces] at hp
  rcases List.mem_cons.mp hp with rfl | hp
  · rw [content, hpieces, List.flatten_cons] at h
    rw [← Bool.not_eq_true] at h ⊢
    exact fun hp => h (isCommentText_append hp _)
  · refine c.isCommentText_eq_false p ?_
    show p ∈ c.pieces.tail
    rw [hpieces]
    exact hp

/-- **The lines of a cut are joined from the pieces**, whatever comes after them, if the line that
is cut is neither a comment nor continued. -/
theorem join_lines (hcomment : isCommentText c.content = false)
    (hmarker : ending = .none ∨ beforeMarker? escape.text c.content = none) (index start : Nat) :
    ∃ l ls first more, PhysicalLine.number index start (c.lines escape ending) = l :: ls
      ∧ Break.joined escape index start c.breaks ⟨c.last, ending⟩ = first :: more
      ∧ ∀ rest, join escape.text l (ls ++ rest) = (first, more, rest) := by
  have hpieces := fun p (hp : p ∈ c.pieces) => c.isCommentText_of_mem_pieces hcomment hp
  have hlast : ending = .none ∨ beforeMarker? escape.text c.last = none := by
    refine hmarker.imp_right fun h => beforeMarker?_of_append
      (p := (c.breaks.map Break.piece).flatten) ?_
    simpa [content, pieces] using h
  have hcontinued : ∀ rest, continued escape.text
      (PhysicalLine.number index start (c.lines escape ending) ++ rest)
        = (Break.joined escape index start c.breaks ⟨c.last, ending⟩, rest) :=
    Break.continued_lines c.breaks ⟨c.last, ending⟩ hpieces hlast index start
  unfold lines at hcontinued ⊢
  cases hb : c.breaks with
  | nil =>
    rw [hb] at hcontinued
    refine ⟨_, _, _, _, rfl, rfl, fun rest => ?_⟩
    exact join_of_continued (hpieces c.last (by simp [pieces])) (hcontinued rest)
  | cons b bs =>
    rw [hb] at hcontinued
    refine ⟨_, _, _, _, rfl, rfl, fun rest => ?_⟩
    refine join_of_continued ?_ (hcontinued rest)
    show isCommentText (b.piece ++ escape.char :: b.blanks) = false
    rw [isCommentText_append_cons escape.isBlank_char escape.char_ne_hash]
    exact hpieces b.piece (by simp [pieces, hb])

end Cut

end Dockerfile
