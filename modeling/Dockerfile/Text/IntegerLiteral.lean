/-!
# Integer literals

    literal ::= space* ("+" | "-")? digit ("_"? digit)* space*

The digits are the decimal digits of any script, all read in base ten; there may be one underscore
between two digits. Numerals of more than 4300 digits are refused. The white space around a literal
is that of Unicode without the four separators U+001C to U+001F.
-/

namespace Dockerfile

/-! ## White space -/

/-- The white space of Unicode, the separators U+001C to U+001F included. -/
def isUnicodeSpace (c : Char) : Bool :=
  let n := c.toNat
  (0x09 ≤ n && n ≤ 0x0D) || (0x1C ≤ n && n ≤ 0x20) || n == 0x85 || n == 0xA0 || n == 0x1680
    || (0x2000 ≤ n && n ≤ 0x200A) || n == 0x2028 || n == 0x2029 || n == 0x202F || n == 0x205F
    || n == 0x3000

/-- The white space that may stand around a literal. -/
def isLiteralPadding (c : Char) : Bool :=
  isUnicodeSpace c && !(0x1C ≤ c.toNat && c.toNat ≤ 0x1F)

/-- The text without the padding at its two ends. -/
def unpadded (s : List Char) : List Char :=
  ((s.dropWhile isLiteralPadding).reverse.dropWhile isLiteralPadding).reverse

/-! ## Digits -/

/-- The codes of the digit zero of each script. The other nine digits follow it. -/
def zeroDigits : List Nat :=
    [0x30, 0x660, 0x6F0, 0x7C0, 0x966, 0x9E6, 0xA66, 0xAE6, 0xB66, 0xBE6, 0xC66, 0xCE6, 0xD66,
    0xDE6, 0xE50, 0xED0, 0xF20, 0x1040, 0x1090, 0x17E0, 0x1810, 0x1946, 0x19D0, 0x1A80, 0x1A90,
    0x1B50, 0x1BB0, 0x1C40, 0x1C50, 0xA620, 0xA8D0, 0xA900, 0xA9D0, 0xA9F0, 0xAA50, 0xABF0,
    0xFF10, 0x104A0, 0x10D30, 0x11066, 0x110F0, 0x11136, 0x111D0, 0x112F0, 0x11450, 0x114D0,
    0x11650, 0x116C0, 0x11730, 0x118E0, 0x11950, 0x11C50, 0x11D50, 0x11DA0, 0x16A60, 0x16AC0,
    0x16B50, 0x1D7CE, 0x1D7D8, 0x1D7E2, 0x1D7EC, 0x1D7F6, 0x1E140, 0x1E2F0, 0x1E950, 0x1FBF0]

/-- The value of a decimal digit. -/
def digitValue? (c : Char) : Option Nat :=
  (zeroDigits.find? fun first => first ≤ c.toNat && c.toNat < first + 10).map (c.toNat - ·)

/-- The values of the digits of a numeral. -/
def numeralDigits? : List Char → Option (List Nat)
  | [] => none
  | [c] => (digitValue? c).map ([·])
  | c :: '_' :: rest => do
    let digit ← digitValue? c
    let digits ← numeralDigits? rest
    some (digit :: digits)
  | c :: rest => do
    let digit ← digitValue? c
    let digits ← numeralDigits? rest
    some (digit :: digits)

/-- The number of digits that a numeral may have. -/
def maxDigits : Nat := 4300

/-- The number that a numeral stands for. -/
def numeral? (s : List Char) : Option Nat := do
  let digits ← numeralDigits? s
  if digits.length ≤ maxDigits then some (digits.foldl (fun n digit => 10 * n + digit) 0) else none

/-! ## Literals -/

/-- The integer that a literal stands for. -/
def integer? (s : List Char) : Option Int :=
  match unpadded s with
  | '-' :: rest => (numeral? rest).map fun n => -(n : Int)
  | '+' :: rest => (numeral? rest).map fun n => (n : Int)
  | rest => (numeral? rest).map fun n => (n : Int)

end Dockerfile
