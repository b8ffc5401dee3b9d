import Dockerfile.Text.Numeral

/-!
# JSON strings

A text as a string of JSON, written in printable ASCII only. Quotes and backslashes are escaped,
six control characters have an escape of their own, and any other character outside printable
ASCII is written by its UTF-16 code units, of which characters beyond U+FFFF have two.
-/

namespace Dockerfile.JsonString

/-- The escape of a UTF-16 code unit. -/
def unitEscape (n : Nat) : List Char :=
  ['\\', 'u', hexDigit (n / 4096), hexDigit (n / 256), hexDigit (n / 16), hexDigit n]

/-- One character inside a string. -/
def encodeChar (c : Char) : List Char :=
  let n := c.toNat
  if c == '"' then ['\\', '"']
  else if c == '\\' then ['\\', '\\']
  else if c == '\n' then ['\\', 'n']
  else if c == '\r' then ['\\', 'r']
  else if c == '\t' then ['\\', 't']
  else if n == 0x08 then ['\\', 'b']
  else if n == 0x0C then ['\\', 'f']
  else if 0x20 ≤ n && n ≤ 0x7E then [c]
  else if n < 0x10000 then unitEscape n
  else unitEscape (0xD800 + (n - 0x10000) / 0x400) ++ unitEscape (0xDC00 + (n - 0x10000) % 0x400)

/-- The string with its quotes. -/
def encode (s : List Char) : List Char := '"' :: (s.flatMap encodeChar ++ ['"'])

end Dockerfile.JsonString
