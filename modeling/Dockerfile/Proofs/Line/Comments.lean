import Mathlib.Data.List.TakeWhile
import Dockerfile.Proofs.Line.Blocks

/-!
# Comments are whole lines

A logical line is made of the starts of physical lines. If one of these starts with blanks only, the
next one decides what the text looks like. But a comment line is never continued and never continues
another line, so no start of a line that is put together with others looks like a comment, and
neither does the text that they make up.

* `isCommentText_append_iff` — which of two texts makes them a comment
* `Joins.isComment_iff` — what a logical line in the form of a comment is made of
* `isComment_iff_of_mem_joinedUnder` — so it is for all logical lines of a text
-/

namespace Dockerfile

/-! ## Texts -/

section Texts

variable {p : List Char}

theorem isCommentText_append_of_isAllBlank (hp : isAllBlank p = true) (q : List Char) :
    isCommentText (p ++ q) = isCommentText q := by
  rw [isCommentText, isCommentText, skipBlanks, skipBlanks,
    List.dropWhile_append_of_pos (List.all_eq_true.mp hp)]

theorem isCommentText_append_of_not_isAllBlank (hp : isAllBlank p = false) (q : List Char) :
    isCommentText (p ++ q) = isCommentText p := by
  have hne : skipBlanks p ≠ [] := by
    intro hnil
    rw [skipBlanks, List.dropWhile_eq_nil_iff] at hnil
    rw [isAllBlank, List.all_eq_true.mpr hnil] at hp
    cases hp
  obtain ⟨c, rest, hskip⟩ := List.exists_cons_of_ne_nil hne
  have happend : skipBlanks (p ++ q) = c :: (rest ++ q) := by
    rw [skipBlanks] at hskip ⊢
    rw [List.dropWhile_append, hskip]
    rfl
  rw [isCommentText, isCommentText, happend, hskip]
  rfl

theorem isCommentText_of_isAllBlank (hp : isAllBlank p = true) : isCommentText p = false := by
  have h := isCommentText_append_of_isAllBlank hp []
  rwa [List.append_nil] at h

/-- A text is a comment by its first part, or by the second one if the first part is blank. -/
theorem isCommentText_append_iff {q : List Char} : isCommentText (p ++ q) = true
    ↔ isCommentText p = true ∨ isAllBlank p = true ∧ isCommentText q = true := by
  cases hp : isAllBlank p with
  | true =>
    rw [isCommentText_append_of_isAllBlank hp, isCommentText_of_isAllBlank hp]
    simp
  | false =>
    rw [isCommentText_append_of_not_isAllBlank hp]
    simp

theorem isCommentText_append (h : isCommentText p = true) (q : List Char) :
    isCommentText (p ++ q) = true :=
  isCommentText_append_iff.mpr (Or.inl h)

/-- What stands behind its first non-blank character does not make a text a comment. -/
theorem isCommentText_append_cons {e : Char} (he : isBlank e = false) (hne : e ≠ '#')
    (p q : List Char) : isCommentText (p ++ e :: q) = isCommentText p := by
  have hcons : isCommentText (e :: q) = false := by
    simp [isCommentText, skipBlanks, he, hne]
  rw [Bool.eq_iff_iff, isCommentText_append_iff, hcons]
  simp

/-- Texts that are no comments make up no comment, however many of them are blank. -/
theorem isCommentText_flatten {ps : List (List Char)} (h : ∀ p ∈ ps, isCommentText p = false) :
    isCommentText ps.flatten = false := by
  induction ps with
  | nil => rfl
  | cons p ps ih =>
    obtain ⟨hp, hps⟩ := List.forall_mem_cons.mp h
    rw [← Bool.not_eq_true, List.flatten_cons, isCommentText_append_iff, hp, ih hps]
    simp

end Texts

/-! ## Logical lines -/

/-- The logical line is the physical line, from its start to its end, and nothing else. -/
def LogicalLine.IsWhole (x : LogicalLine) (l : PhysicalLine) : Prop :=
  x.text = l.content ∧ x.fragments = [⟨l.index, 0, l.content.length, l.start, 0⟩]

theorem LogicalLine.isWhole_whole (index : Nat) (l : PhysicalLine) :
    (ofPieces index l.whole []).IsWhole l :=
  ⟨List.append_nil _, rfl⟩

theorem LogicalLine.IsWhole.isComment_eq {x : LogicalLine} {l : PhysicalLine} (h : x.IsWhole l) :
    x.isComment = l.isComment := by
  rw [LogicalLine.isComment, h.1, PhysicalLine.isComment]

namespace Joins

variable {escape : List Char} {used : List PhysicalLine} {first : Piece} {more : List Piece}

/-- A logical line that starts with a comment line is that line. -/
theorem eq_whole_of_isComment (h : Joins escape used first more)
    (hfirst : first.line.isComment = true) : first = first.line.whole ∧ more = [] := by
  cases h with
  | comment => exact ⟨rfl, rfl⟩
  | closed => exact ⟨rfl, rfl⟩
  | goesOn hc => exact absurd (hfirst.symm.trans hc) Bool.noConfusion

/-- The pieces of a logical line that does not start with a comment line are no comments. -/
theorem isCommentText_kept (h : Joins escape used first more)
    (hfirst : first.line.isComment = false) {p : Piece} (hp : p ∈ first :: more) :
    isCommentText p.kept = false := by
  have hline : p.line.isComment = false := by
    rcases List.mem_cons.mp hp with rfl | hp
    · exact hfirst
    · exact h.isComment_eq_false hp
  -- a piece is the start of its line
  obtain ⟨cut, hcut⟩ := h.kept_isPrefix hp
  rw [← Bool.not_eq_true] at hline ⊢
  intro hc
  refine hline ?_
  rw [PhysicalLine.isComment, ← hcut]
  exact isCommentText_append hc cut

/-- **A logical line has the form of a comment iff it is a comment line as a whole.** -/
theorem isComment_iff (h : Joins escape used first more) (index : Nat) :
    (LogicalLine.ofPieces index first more).isComment = true
      ↔ ∃ l ∈ used, l.isComment = true ∧ (LogicalLine.ofPieces index first more).IsWhole l := by
  constructor
  · intro hcomment
    cases hfirst : first.line.isComment with
    | true =>
      obtain ⟨hwhole, rfl⟩ := h.eq_whole_of_isComment hfirst
      obtain ⟨rest, hused⟩ := h.exists_cons
      rw [hwhole]
      exact ⟨first.line, by rw [hused]; exact List.mem_cons_self .., hfirst,
        LogicalLine.isWhole_whole index first.line⟩
    | false =>
      have hpieces : ∀ p ∈ (first :: more).map Piece.kept, isCommentText p = false := by
        intro p hp
        obtain ⟨q, hq, rfl⟩ := List.mem_map.mp hp
        exact h.isCommentText_kept hfirst hq
      rw [LogicalLine.isComment, LogicalLine.text_ofPieces, List.flatMap_def,
        isCommentText_flatten hpieces] at hcomment
      cases hcomment
  · rintro ⟨l, -, hl, hwhole⟩
    rw [hwhole.isComment_eq, hl]

end Joins

/-- **A logical line of a text has the form of a comment iff it is a comment line as a whole**,
whatever the escape texts are under which the lines are joined. -/
theorem isComment_iff_of_mem_joinedUnder {σ : Type} {escape : σ → List Char}
    {next : σ → LogicalLine → σ} {index : Nat} {start : σ} {ls : List PhysicalLine}
    {x : List Char × LogicalLine} (hx : x ∈ joinedUnder escape next index start ls) :
    x.2.isComment = true ↔ ∃ l ∈ ls, l.isComment = true ∧ x.2.IsWhole l := by
  obtain ⟨bs, hlines, hzip⟩ := joinedUnder_eq_zip escape next index start ls
  rw [hzip] at hx
  obtain ⟨i, hi⟩ := List.mem_iff_getElem?.mp hx
  rw [Block.getElem?_zip_logicals] at hi
  obtain ⟨b, hb, rfl⟩ := Option.map_eq_some_iff.mp hi
  have hsub : ∀ l ∈ b.lines, l ∈ ls := fun l hl =>
    hlines ▸ List.mem_flatMap.mpr ⟨b, List.mem_of_getElem? hb, hl⟩
  constructor
  · intro hc
    obtain ⟨l, hl, hcomment, hwhole⟩ := (b.joins.isComment_iff (index + i)).mp hc
    exact ⟨l, hsub l hl, hcomment, hwhole⟩
  · rintro ⟨l, -, hl, hwhole⟩
    rw [hwhole.isComment_eq, hl]

end Dockerfile
