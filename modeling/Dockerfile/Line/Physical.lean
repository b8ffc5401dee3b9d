/-!
# Physical lines

A text is cut into physical lines after every line feed, every carriage return, and every pair of
a carriage return and a line feed, which counts as one ending. The cut loses nothing: contents and
endings put together again are the text. There is always at least one line, and the last one alone
has no ending.
-/

namespace Dockerfile

/-- How a physical line ends; `none` at the end of the text. -/
inductive LineEnding
  | lf
  | cr
  | crlf
  | none
deriving DecidableEq

/-- The characters of the ending. -/
def LineEnding.text : LineEnding → List Char
  | .lf => ['\n']
  | .cr => ['\r']
  | .crlf => ['\r', '\n']
  | .none => []

/-- The characters of a line and the ending after them. -/
structure RawLine where
  content : List Char
  ending : LineEnding
deriving DecidableEq

namespace RawLine

/-- The part of the text that the line covers, its ending included. -/
def text (l : RawLine) : List Char := l.content ++ l.ending.text

/-- Puts a character in front of the first line. -/
def prepend (c : Char) : List RawLine → List RawLine
  | [] => [⟨[c], .none⟩]
  | l :: more => { l with content := c :: l.content } :: more

/-- The lines of a text. A carriage return takes the line feed after it into its ending. -/
def ofText : List Char → List RawLine
  | [] => [⟨[], .none⟩]
  | '\r' :: '\n' :: rest => ⟨[], .crlf⟩ :: ofText rest
  | '\r' :: rest => ⟨[], .cr⟩ :: ofText rest
  | '\n' :: rest => ⟨[], .lf⟩ :: ofText rest
  | c :: rest => prepend c (ofText rest)

theorem prepend_ne_nil (c : Char) (ls : List RawLine) : prepend c ls ≠ [] := by
  cases ls <;> simp [prepend]

/-- A text has at least one line, be it empty. -/
theorem ofText_ne_nil (s : List Char) : ofText s ≠ [] := by
  fun_induction ofText s <;> simp [prepend_ne_nil]

theorem flatMap_text_prepend (c : Char) {ls : List RawLine} (h : ls ≠ []) :
    (prepend c ls).flatMap text = c :: ls.flatMap text := by
  cases ls with
  | nil => exact absurd rfl h
  | cons l more => simp [prepend, text]

/-- **The lines put together again are the text.** -/
theorem flatMap_text_ofText (s : List Char) : (ofText s).flatMap text = s := by
  fun_induction ofText s with
  | case1 => rfl
  | case2 rest ih => simp [text, LineEnding.text, ih]
  | case3 rest _ ih => simp [text, LineEnding.text, ih]
  | case4 rest ih => simp [text, LineEnding.text, ih]
  | case5 c rest _ _ _ ih => rw [flatMap_text_prepend c (ofText_ne_nil rest), ih]

/-- Characters of no line ending stand at the start of the first line. -/
theorem ofText_append {content s : List Char} (hcr : '\r' ∉ content) (hlf : '\n' ∉ content)
    {l : RawLine} {more : List RawLine} (hs : ofText s = l :: more) :
    ofText (content ++ s) = { l with content := content ++ l.content } :: more := by
  induction content with
  | nil => exact hs
  | cons c content ih =>
    rw [List.mem_cons, not_or] at hcr hlf
    rw [List.cons_append, ofText, ih hcr.2 hlf.2, prepend]
    · rfl
    · exact fun _ hc _ => hcr.1 hc.symm
    · exact fun hc => hcr.1 hc.symm
    · exact fun hc => hlf.1 hc.symm

end RawLine

/-- A line together with its number and the offset in the text at which it starts. -/
structure PhysicalLine extends RawLine where
  index : Nat
  start : Nat
deriving DecidableEq

namespace PhysicalLine

/-- The offset in the text at which the content ends, in front of the ending. -/
def stop (l : PhysicalLine) : Nat := l.start + l.content.length

/-- Numbers lines from `index` on, the first of them starting at `start`. -/
def number (index start : Nat) : List RawLine → List PhysicalLine
  | [] => []
  | l :: more =>
    { l with index := index, start := start }
      :: number (index + 1) (start + l.text.length) more

/-- The physical lines of a text, numbered from zero. -/
def ofText (s : List Char) : List PhysicalLine := number 0 0 (RawLine.ofText s)

@[simp]
theorem length_number (index start : Nat) (ls : List RawLine) :
    (number index start ls).length = ls.length := by
  induction ls generalizing index start with
  | nil => rfl
  | cons l more ih => simp [number, ih]

/-- Numbering leaves the lines as they are. -/
theorem map_toRawLine_number (index start : Nat) (ls : List RawLine) :
    (number index start ls).map (·.toRawLine) = ls := by
  induction ls generalizing index start with
  | nil => rfl
  | cons l more ih => rw [number, List.map_cons, ih]

end PhysicalLine

end Dockerfile
