import Dockerfile.Syntax.ParseTree

/-!
# The form of a directive

    directive ::= blanks? "#" blanks? key "=" value?

The key is a letter and then letters, digits, `_` and `-`, and the equals sign follows it at once.
The value is everything after the equals sign and may not hold a line feed.

`DirectiveForm` keeps every character, so that `source` gives the text back that it was read from.
-/

namespace Dockerfile

/-- The parts of a directive. -/
structure DirectiveForm where
  /-- The blanks in front of `#`. -/
  lead : List Char
  /-- The blanks after `#`. -/
  gap : List Char
  key : List Char
  value : List Char
deriving DecidableEq

namespace DirectiveForm

/-- The form written out. -/
def source (f : DirectiveForm) : List Char := f.lead ++ '#' :: (f.gap ++ (f.key ++ '=' :: f.value))

/-- The key, the equals sign and the value. -/
def parseBody (lead gap : List Char) : List Char → Except ParseFailure DirectiveForm
  | [] => .error .endOfText
  | c :: rest =>
    if isKeyStart c then
      match (c :: rest).dropWhile isKeyChar with
      | '=' :: value =>
        if value.contains '\n' then .error .character
        else .ok ⟨lead, gap, (c :: rest).takeWhile isKeyChar, value⟩
      | stuck => .error (.stuckAt stuck)
    else .error .character

/-- Reads a text as a directive. -/
def parse (s : List Char) : Except ParseFailure DirectiveForm :=
  match skipBlanks s with
  | '#' :: rest => parseBody (leadingBlanks s) (leadingBlanks rest) (skipBlanks rest)
  | stuck => .error (.stuckAt stuck)

/-- The offset of the key. -/
def keyStart (f : DirectiveForm) : Nat := f.lead.length + 1 + f.gap.length

/-- The offset of the value. -/
def valueStart (f : DirectiveForm) : Nat := f.keyStart + f.key.length + 1

/-- The tree of the form. -/
def tree (f : DirectiveForm) : ParseTree :=
  let key : Token := ⟨.directiveKey, f.key, f.keyStart⟩
  let value : Token := ⟨.directiveValue, f.value, f.valueStart⟩
  .node .start 0 f.source.length
    (.token key :: if f.value.isEmpty then [] else [.token value])

end DirectiveForm

end Dockerfile
