/-!
# Blanks

The space and the tab are the only blanks of the Dockerfile language. Every other character is
ordinary, line endings and the white space of other alphabets included.

Texts are lists of characters; an offset counts characters. The functions here take blanks off
one end of a text, and a text is always the part taken off next to the part kept.
-/

namespace Dockerfile

/-- A space or a tab. -/
def isBlank (c : Char) : Bool := c == ' ' || c == '\t'

/-- Blanks and nothing else; the empty text is one. -/
def isAllBlank (s : List Char) : Bool := s.all isBlank

/-- The blanks that a text starts with. -/
def leadingBlanks (s : List Char) : List Char := s.takeWhile isBlank

/-- The text from its first non-blank character on. -/
def skipBlanks (s : List Char) : List Char := s.dropWhile isBlank

theorem leadingBlanks_append_skipBlanks (s : List Char) :
    leadingBlanks s ++ skipBlanks s = s := by
  simp [leadingBlanks, skipBlanks]

theorem skipBlanks_length_le (s : List Char) : (skipBlanks s).length ≤ s.length :=
  (List.dropWhile_suffix _).length_le

/-- The text up to its last non-blank character. -/
def trimEnd : List Char → List Char
  | [] => []
  | c :: rest =>
    match trimEnd rest with
    | [] => if isBlank c then [] else [c]
    | kept => c :: kept

/-- What `trimEnd` takes off is a run of blanks. -/
theorem trimEnd_append_blanks (s : List Char) :
    ∃ blanks, isAllBlank blanks = true ∧ trimEnd s ++ blanks = s := by
  induction s with
  | nil => exact ⟨[], rfl, rfl⟩
  | cons c rest ih =>
    obtain ⟨blanks, hb, hrest⟩ := ih
    simp only [trimEnd]
    split
    next h =>
      rw [h] at hrest
      by_cases hc : isBlank c = true
      · exact ⟨c :: blanks, by simpa [isAllBlank, hc] using hb, by simpa [hc] using hrest⟩
      · exact ⟨blanks, hb, by simpa [hc] using hrest⟩
    next kept _ =>
      exact ⟨blanks, hb, by simpa using hrest⟩

/-- The text without the blanks at its two ends. -/
def trim (s : List Char) : List Char := trimEnd (skipBlanks s)

end Dockerfile
