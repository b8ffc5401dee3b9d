/-!
# References

    reference ::= "$" name | "${" name "}" | "${" name ":" ("-" | "+" | "?") word "}"

A name is an ASCII letter or `_` and then ASCII letters, digits and `_`; a word is anything up to
the next closing brace. References are looked for from the left, and the search goes on behind the
last one found. A reference right after the escape character is literal: it is passed over as a
whole, together with everything inside it.

The search takes at least one character a step, so the rest of the text gets shorter.
-/

namespace Dockerfile

/-! ## Forms -/

/-- A name starts with an ASCII letter or `_`. -/
def isNameStart (c : Char) : Bool := c.isAlpha || c == '_'

/-- A name goes on with ASCII letters, digits and `_`. -/
def isNameChar (c : Char) : Bool := c.isAlphanum || c == '_'

/-- The ways to write a reference. -/
inductive ReferenceForm
  | bare (name : List Char)
  | braced (name : List Char)
  | withWord (name : List Char) (operator : Char) (word : List Char)
deriving DecidableEq

namespace ReferenceForm

/-- The name of the variable. -/
def name : ReferenceForm → List Char
  | .bare name => name
  | .braced name => name
  | .withWord name _ _ => name

/-- The form written out. -/
def source : ReferenceForm → List Char
  | .bare name => '$' :: name
  | .braced name => '$' :: '{' :: (name ++ ['}'])
  | .withWord name operator word => '$' :: '{' :: (name ++ ':' :: operator :: (word ++ ['}']))

/-- The longest name that a text starts with, and the rest. -/
def name? : List Char → Option (List Char × List Char)
  | [] => none
  | c :: s =>
    if isNameStart c then some (c :: s.takeWhile isNameChar, s.dropWhile isNameChar) else none

/-- The characters that may stand between the colon and the word. -/
def isOperator (c : Char) : Bool := c == '-' || c == '+' || c == '?'

/-- What follows the name inside braces. -/
def closing? (name : List Char) : List Char → Option (ReferenceForm × List Char)
  | '}' :: rest => some (.braced name, rest)
  | ':' :: operator :: s =>
    if isOperator operator then
      match s.dropWhile (· != '}') with
      | [] => none
      | _ :: rest => some (.withWord name operator (s.takeWhile (· != '}')), rest)
    else none
  | _ => none

/-- The reference whose dollar sign stands right in front of a text, and the rest. -/
def afterDollar? : List Char → Option (ReferenceForm × List Char)
  | '{' :: s => (name? s).bind fun (name, rest) => closing? name rest
  | s => (name? s).map fun (name, rest) => (.bare name, rest)

theorem name?_length {s name rest : List Char} (h : name? s = some (name, rest)) :
    rest.length < s.length := by
  cases s with
  | nil => simp [name?] at h
  | cons c s =>
    simp only [name?] at h
    split at h
    · obtain ⟨_, rfl⟩ := by simpa using h
      exact Nat.lt_succ_of_le (List.dropWhile_suffix _).length_le
    · simp at h

theorem closing?_length {name s rest : List Char} {f : ReferenceForm}
    (h : closing? name s = some (f, rest)) : rest.length < s.length := by
  unfold closing? at h
  split at h
  next =>
    obtain ⟨_, rfl⟩ := by simpa using h
    simp
  next operator s =>
    have hle := (List.dropWhile_suffix (· != '}') (l := s)).length_le
    split at h
    · split at h
      next => simp at h
      next brace tail hd =>
        obtain ⟨_, rfl⟩ := by simpa using h
        rw [hd] at hle
        simp only [List.length_cons] at hle ⊢
        omega
    · simp at h
  next => simp at h

theorem afterDollar?_length {s rest : List Char} {f : ReferenceForm}
    (h : afterDollar? s = some (f, rest)) : rest.length < s.length := by
  unfold afterDollar? at h
  split at h
  next s =>
    obtain ⟨⟨name, after⟩, hname, hclose⟩ := Option.bind_eq_some_iff.1 h
    have := name?_length hname
    have := closing?_length hclose
    simp only [List.length_cons]
    omega
  next =>
    obtain ⟨⟨name, after⟩, hname, heq⟩ := Option.map_eq_some_iff.1 h
    obtain ⟨_, rfl⟩ := by simpa using heq
    exact name?_length hname

end ReferenceForm

/-! ## Search -/

/-- The use of a variable: the name and the span from the dollar sign to the end of the name or of
the closing brace, as offsets in the logical text. -/
structure Reference where
  name : List Char
  start : Nat
  stop : Nat
  /-- The number of the logical line. -/
  line : Nat
deriving DecidableEq

namespace Reference

/-- An offset on the reference, its end included. -/
def contains (r : Reference) (offset : Int) : Bool :=
  (r.start : Int) ≤ offset && offset ≤ (r.stop : Int)

/-- A dollar sign after the character `previous` is literal. -/
def isEscaped (escape : List Char) (previous : Option Char) : Bool :=
  previous.any fun c => [c] == escape

/-- The references in the rest of a text. The rest starts at `offset`, behind the character
`previous`. -/
def search (escape : List Char) (line : Nat) (previous : Option Char) (offset : Nat) :
    List Char → List Reference
  | [] => []
  | c :: s =>
    if c = '$' then
      match _h : ReferenceForm.afterDollar? s with
      | none => search escape line (some c) (offset + 1) s
      | some (form, rest) =>
        let stop := offset + form.source.length
        let more := search escape line form.source.getLast? stop rest
        if isEscaped escape previous then more else ⟨form.name, offset, stop, line⟩ :: more
    else search escape line (some c) (offset + 1) s
termination_by s => s.length
decreasing_by
  · exact Nat.lt_succ_self _
  · exact Nat.lt_succ_of_lt (ReferenceForm.afterDollar?_length _h)
  · exact Nat.lt_succ_self _

/-- The references in a text that starts at `offset` of a logical line. A dollar sign right after
the escape text, if that is one character, is literal. -/
def find (escape : List Char) (line offset : Nat) (s : List Char) : List Reference :=
  search escape line none offset s

end Reference

end Dockerfile
