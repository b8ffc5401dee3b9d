import Dockerfile.Syntax.ParseTree

/-!
# Values of variables

    value ::= (chunk | '"' … '"' | "'" … "'")+

A value is a run of unquoted chunks and quoted strings with no blanks between them; `a"b c"'d'` is
one value. The quotes do not belong to what the value stands for. An unquoted chunk cannot hold a
quote, and a quoted string ends at the next quote of its kind, whatever is in between.

Reading goes on to the next unquoted blank or to the end of the text. Each chunk takes at least one
character, so the rest gets shorter.
-/

namespace Dockerfile

/-- A piece of a value. -/
inductive Chunk
  | plain (text : List Char)
  | doubleQuoted (text : List Char)
  | singleQuoted (text : List Char)
deriving DecidableEq

namespace Chunk

/-- The chunk as it is written. -/
def source : Chunk → List Char
  | .plain text => text
  | .doubleQuoted text => '"' :: (text ++ ['"'])
  | .singleQuoted text => '\'' :: (text ++ ['\''])

/-- What the chunk stands for. -/
def content : Chunk → List Char
  | .plain text => text
  | .doubleQuoted text => text
  | .singleQuoted text => text

/-- The terminal that a chunk is a match of. -/
def terminal : Chunk → Terminal
  | .plain _ => .valueChunk
  | .doubleQuoted _ => .doubleQuoted
  | .singleQuoted _ => .singleQuoted

/-- The text up to the closing quote, and the text after it. -/
def closing? (quote : Char) (s : List Char) : Option (List Char × List Char) :=
  match s.dropWhile (· != quote) with
  | [] => none
  | _ :: rest => some (s.takeWhile (· != quote), rest)

/-- The chunk that a text starts with, and the rest; `none` at the end, at a blank, and at a quote
that is never closed. -/
def read? : List Char → Option (Chunk × List Char)
  | [] => none
  | '"' :: s => (closing? '"' s).map fun (text, rest) => (.doubleQuoted text, rest)
  | '\'' :: s => (closing? '\'' s).map fun (text, rest) => (.singleQuoted text, rest)
  | c :: s =>
    if isBlank c then none
    else some (.plain (c :: s.takeWhile isChunkChar), s.dropWhile isChunkChar)

theorem closing?_length {quote : Char} {s text rest : List Char}
    (h : closing? quote s = some (text, rest)) : rest.length < s.length := by
  have hle := (List.dropWhile_suffix (· != quote) (l := s)).length_le
  unfold closing? at h
  split at h
  next => simp at h
  next c tail hd =>
    obtain ⟨_, rfl⟩ := by simpa using h
    rw [hd] at hle
    exact hle

/-- A chunk takes at least one character. -/
theorem read?_length {s rest : List Char} {c : Chunk} (h : read? s = some (c, rest)) :
    rest.length < s.length := by
  unfold read? at h
  split at h
  next => simp at h
  next s =>
    obtain ⟨⟨text, rest'⟩, hc, heq⟩ := Option.map_eq_some_iff.1 h
    obtain ⟨_, rfl⟩ := by simpa using heq
    exact Nat.lt_succ_of_lt (closing?_length hc)
  next s =>
    obtain ⟨⟨text, rest'⟩, hc, heq⟩ := Option.map_eq_some_iff.1 h
    obtain ⟨_, rfl⟩ := by simpa using heq
    exact Nat.lt_succ_of_lt (closing?_length hc)
  next c s _ _ =>
    split at h
    · simp at h
    · obtain ⟨_, rfl⟩ := by simpa using h
      exact Nat.lt_succ_of_le (List.dropWhile_suffix _).length_le

/-- The chunks up to the next unquoted blank, and the rest; `none` if a quote is never closed. -/
def readAll? : List Char → Option (List Chunk × List Char)
  | [] => some ([], [])
  | c :: s =>
    if isBlank c then some ([], c :: s)
    else
      match _h : read? (c :: s) with
      | none => none
      | some (chunk, rest) => (readAll? rest).map fun (chunks, after) => (chunk :: chunks, after)
termination_by s => s.length
decreasing_by exact read?_length _h

theorem readAll?_length {s rest : List Char} {chunks : List Chunk}
    (h : readAll? s = some (chunks, rest)) : rest.length ≤ s.length := by
  fun_induction readAll? s generalizing chunks rest with
  | case1 => simp_all
  | case2 => simp_all
  | case3 => simp at h
  | case4 c s _ chunk rest' hread ih =>
    obtain ⟨⟨more, after⟩, hall, heq⟩ := Option.map_eq_some_iff.1 h
    obtain ⟨_, rfl⟩ := by simpa using heq
    have := read?_length hread
    have := ih hall
    omega

/-- The tokens of chunks, the first of them starting at `start`. -/
def tokens (start : Nat) : List Chunk → List Token
  | [] => []
  | c :: more => ⟨c.terminal, c.source, start⟩ :: tokens (start + c.source.length) more

end Chunk

/-- What a value stands for: its chunks without their quotes. -/
def valueText (chunks : List Chunk) : List Char := chunks.flatMap Chunk.content

/-- A value as it is written. -/
def valueSource (chunks : List Chunk) : List Char := chunks.flatMap Chunk.source

/-- The tree of a value that starts at `start`. -/
def valueTree (start : Nat) (chunks : List Chunk) : ParseTree :=
  .node .value start (start + (valueSource chunks).length)
    ((Chunk.tokens start chunks).map .token)

end Dockerfile
