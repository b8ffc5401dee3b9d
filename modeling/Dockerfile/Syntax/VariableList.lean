import Dockerfile.Syntax.Value

/-!
# The arguments of `ARG` and `ENV`

    arg  ::= blanks? item (blanks item)* blanks?
    item ::= name | name "=" value?

    env  ::= blanks? (name blanks rest | pair (blanks pair)*) blanks?
    pair ::= name "=" value?

A name is a run of characters other than blanks and the equals sign. The arguments of `ENV` are
pairs if an equals sign follows the first name, and otherwise one name whose value is the rest of
the line, quotes and all. The forms keep every character.
-/

namespace Dockerfile

/-! ## Items -/

/-- A declared variable. -/
structure Item where
  /-- The blanks in front of the name. -/
  gap : List Char
  name : List Char
  /-- The chunks after the equals sign, possibly none of them; `none` without an equals sign. -/
  value : Option (List Chunk)
deriving DecidableEq

namespace Item

/-- The item written out, from the name on. -/
def body (i : Item) : List Char :=
  i.name ++ match i.value with
    | none => []
    | some chunks => '=' :: valueSource chunks

/-- The item written out. -/
def source (i : Item) : List Char := i.gap ++ i.body

/-- Reads an item. Without an equals sign it fits only if bare names are allowed. -/
def parse (bare : Bool) (s : List Char) : Except ParseFailure (Item × List Char) :=
  let gap := leadingBlanks s
  let name := (skipBlanks s).takeWhile isVariableChar
  let after := (skipBlanks s).dropWhile isVariableChar
  if name.isEmpty then .error (.stuckAt after)
  else
    match after with
    | '=' :: value =>
      match Chunk.readAll? value with
      | some (chunks, rest) => .ok (⟨gap, name, some chunks⟩, rest)
      | none => .error .character
    | rest => if bare then .ok (⟨gap, name, none⟩, rest) else .error (.stuckAt rest)

/-- An item takes at least one character. -/
theorem parse_length {bare : Bool} {s rest : List Char} {i : Item}
    (h : parse bare s = .ok (i, rest)) : rest.length < s.length := by
  have hskip := skipBlanks_length_le s
  have hsplit := congrArg List.length
    (List.takeWhile_append_dropWhile (p := isVariableChar) (l := skipBlanks s))
  rw [List.length_append] at hsplit
  simp only [parse] at h
  split at h
  next => simp at h
  next hname =>
    have hpos : 0 < ((skipBlanks s).takeWhile isVariableChar).length := by
      rw [List.length_pos_iff]
      simpa using hname
    split at h
    next value hd =>
      rw [hd] at hsplit
      simp only [List.length_cons] at hsplit
      split at h
      next chunks after hv =>
        obtain ⟨_, rfl⟩ := by simpa using h
        have := Chunk.readAll?_length hv
        omega
      next => simp at h
    next =>
      split at h
      · obtain ⟨_, rfl⟩ := by simpa using h
        omega
      · simp at h

/-- Reads items up to the end of the text; the blanks at the end are left over. -/
def parseAll (bare : Bool) (s : List Char) : Except ParseFailure (List Item × List Char) :=
  match _h : parse bare s with
  | .error failure => .error failure
  | .ok (i, rest) =>
    if isAllBlank rest then .ok ([i], rest)
    else
      match parseAll bare rest with
      | .error failure => .error failure
      | .ok (more, trail) => .ok (i :: more, trail)
termination_by s.length
decreasing_by exact parse_length _h

/-- The items with the offsets of their names, the first item starting at `start`. -/
def located (start : Nat) : List Item → List (Nat × Item)
  | [] => []
  | i :: more => (start + i.gap.length, i) :: located (start + i.source.length) more

/-- The tree of an item whose name starts at `start`. -/
def tree (bareRule equalsRule : Rule) (start : Nat) (i : Item) : ParseTree :=
  let name : Token := ⟨.variableName, i.name, start⟩
  let value : Option (List ParseTree) := i.value.map fun chunks =>
    if chunks.isEmpty then [] else [valueTree (start + i.name.length + 1) chunks]
  .node (if i.value.isSome then equalsRule else bareRule) start (start + i.body.length)
    (.token name :: value.getD [])

end Item

/-! ## Arguments of `ARG` -/

/-- Items and the blanks at the end. -/
structure ArgForm where
  items : List Item
  trail : List Char
deriving DecidableEq

namespace ArgForm

/-- The form written out. -/
def source (f : ArgForm) : List Char := f.items.flatMap Item.source ++ f.trail

/-- Reads the arguments of `ARG`. -/
def parse (s : List Char) : Except ParseFailure ArgForm :=
  (Item.parseAll true s).map fun (items, trail) => ⟨items, trail⟩

/-- The tree of the form. -/
def tree (f : ArgForm) : ParseTree :=
  .node .start 0 f.source.length
    ((Item.located 0 f.items).map fun (start, i) => i.tree .argBare .argEquals start)

end ArgForm

/-! ## Arguments of `ENV` -/

/-- One name with the rest of the line, or pairs. -/
inductive EnvForm
  | rest (lead name gap text trail : List Char)
  | pairs (items : List Item) (trail : List Char)
deriving DecidableEq

namespace EnvForm

/-- The form written out. -/
def source : EnvForm → List Char
  | .rest lead name gap text trail => lead ++ (name ++ (gap ++ (text ++ trail)))
  | .pairs items trail => items.flatMap Item.source ++ trail

/-- Reads the arguments of `ENV`. -/
def parse (s : List Char) : Except ParseFailure EnvForm :=
  let name := (skipBlanks s).takeWhile isVariableChar
  let after := (skipBlanks s).dropWhile isVariableChar
  if name.isEmpty then .error (.stuckAt after)
  else if after.head? == some '=' then
    (Item.parseAll false s).map fun (items, trail) => .pairs items trail
  else
    match argumentRun (skipBlanks after) with
    | none => .error .endOfText
    | some (text, trail) =>
      if isAllBlank trail then .ok (.rest (leadingBlanks s) name (leadingBlanks after) text trail)
      else .error .character

/-- The tree of the form. -/
def tree (f : EnvForm) : ParseTree :=
  .node .start 0 f.source.length <|
    match f with
    | .rest lead name gap text _ =>
      let nameToken : Token := ⟨.variableName, name, lead.length⟩
      let restToken : Token := ⟨.environmentRest, text, lead.length + name.length + gap.length⟩
      [.node .envSpace nameToken.start restToken.stop [.token nameToken, .token restToken]]
    | .pairs items _ =>
      (Item.located 0 items).map fun (start, i) => i.tree .envEquals .envEquals start

end EnvForm

end Dockerfile
