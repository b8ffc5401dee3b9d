/-!
# Numerals

Decimal numerals, hexadecimal digits, and the padding that puts numerals into columns.
-/

namespace Dockerfile

/-- The decimal numeral of a number. -/
def decimal (n : Nat) : List Char := Nat.toDigits 10 n

/-- The decimal numeral of an integer, with a minus sign if it is negative. -/
def signedDecimal (n : Int) : List Char :=
  if n < 0 then '-' :: decimal n.natAbs else decimal n.natAbs

/-- The hexadecimal digit of the last four bits of a number, in small letters. -/
def hexDigit (n : Nat) : Char := Nat.digitChar (n % 16)

/-- The last `width` hexadecimal digits of a number, the leading zeros among them included. -/
def hexDigits : Nat → Nat → List Char
  | 0, _ => []
  | width + 1, n => hexDigits width (n / 16) ++ [hexDigit n]

theorem hexDigit_ne_lineFeed (n : Nat) : hexDigit n ≠ '\n' := by
  have hall : ∀ d ∈ List.range 16, Nat.digitChar d ≠ '\n' := by decide
  exact hall _ (List.mem_range.mpr (Nat.mod_lt n (by decide)))

theorem lineFeed_notMem_hexDigits (width n : Nat) : '\n' ∉ hexDigits width n := by
  induction width generalizing n with
  | zero => nofun
  | succ width ih =>
    rw [hexDigits, List.mem_append, List.mem_singleton]
    rintro (h | h)
    · exact ih (n / 16) h
    · exact hexDigit_ne_lineFeed n h.symm

/-- The text with spaces in front that bring it to a width. A longer text stays as it is. -/
def padLeft (width : Nat) (s : List Char) : List Char :=
  List.replicate (width - s.length) ' ' ++ s

theorem length_padLeft (width : Nat) (s : List Char) :
    (padLeft width s).length = max width s.length := by
  simp [padLeft]
  omega

end Dockerfile
