import Dockerfile.Text.Numeral
import Dockerfile.Text.Printable

/-!
# Quoted text

A text as it is shown in messages: between single quotes, or between double quotes if it holds a
single quote and no double quote. The backslash and the quote in use are escaped, and so are all
characters that are not printable: the tab, the line feed and the carriage return by a letter, the
others by two, four or eight hexadecimal digits, as few as hold their code. So a quoted text is on
one line, whatever the text is.
-/

namespace Dockerfile

/-- The quote that a text is shown between. -/
def quoteFor (s : List Char) : Char :=
  if s.contains '\'' && !s.contains '"' then '"' else '\''

/-- The escape of a character by its code. -/
def codeEscape (n : Nat) : List Char :=
  if n < 0x100 then '\\' :: 'x' :: hexDigits 2 n
  else if n < 0x10000 then '\\' :: 'u' :: hexDigits 4 n
  else '\\' :: 'U' :: hexDigits 8 n

/-- One character between quotes. -/
def quotedChar (quote c : Char) : List Char :=
  if c == quote || c == '\\' then ['\\', c]
  else if c == '\t' then ['\\', 't']
  else if c == '\n' then ['\\', 'n']
  else if c == '\r' then ['\\', 'r']
  else if isPrintable c then [c]
  else codeEscape c.toNat

/-- The text between quotes. -/
def quoted (s : List Char) : List Char :=
  let quote := quoteFor s
  quote :: (s.flatMap (quotedChar quote) ++ [quote])

/-- A text that may be missing, between quotes if it is there. -/
def quotedOrNone : Option (List Char) → List Char
  | none => "None".toList
  | some s => quoted s

/-! ## Line feeds -/

theorem lineFeed_notMem_codeEscape (n : Nat) : '\n' ∉ codeEscape n := by
  have hmark (mark : Char) (hmark : mark ≠ '\n') (width : Nat) :
      '\n' ∉ '\\' :: mark :: hexDigits width n := by
    simp only [List.mem_cons, not_or]
    exact ⟨by decide, hmark.symm, lineFeed_notMem_hexDigits width n⟩
  unfold codeEscape
  split
  · exact hmark 'x' (by decide) 2
  split
  · exact hmark 'u' (by decide) 4
  · exact hmark 'U' (by decide) 8

theorem lineFeed_notMem_quotedChar {quote : Char} (hquote : quote ≠ '\n') (c : Char) :
    '\n' ∉ quotedChar quote c := by
  unfold quotedChar
  split
  next hescaped =>
    have hc : c ≠ '\n' := by
      rintro rfl
      exact absurd hescaped (by simpa using hquote.symm)
    simpa using hc.symm
  split
  · decide
  split
  · decide
  next hc =>
    split
    · decide
    split
    · simpa using Ne.symm (fun h : c = '\n' => hc (beq_iff_eq.mpr h))
    · exact lineFeed_notMem_codeEscape _

/-- **A quoted text is on one line.** -/
theorem lineFeed_notMem_quoted (s : List Char) : '\n' ∉ quoted s := by
  have hquote : quoteFor s ≠ '\n' := by
    unfold quoteFor
    split <;> decide
  simp only [quoted, List.mem_cons, List.mem_append, List.mem_flatMap, not_or, not_exists,
    not_and]
  refine ⟨hquote.symm, fun c _ => lineFeed_notMem_quotedChar hquote c, hquote.symm, nofun⟩

/-- A no-break space, a character for private use, and an emoji that is printable. -/
example : quoted "é\u00A0\uE000😀\x1b'".toList = "\"é\\xa0\\ue000😀\\x1b'\"".toList := by
  decide +kernel

end Dockerfile
