import Dockerfile.Text.Blank

/-!
# Terminals

The words of the line grammars. A terminal takes as much text as it can at the place where it is
tried and never gives any of it back, so at one place it has at most one match. The functions here
answer the match and the rest of the text.

A line that does not fit a grammar fails in one of two ways: the text ends where more is needed, or
a character stands where no terminal can go on. `ParseFailure.stuckAt` tells the two apart by what
is left of the text at that place.
-/

namespace Dockerfile

/-! ## Failure -/

/-- Why a text does not fit a grammar. -/
inductive ParseFailure
  | endOfText
  | character
deriving DecidableEq

namespace ParseFailure

/-- The failure at a place with the given rest of the text. -/
def stuckAt : List Char → ParseFailure
  | [] => .endOfText
  | _ :: _ => .character

end ParseFailure

/-! ## Words -/

/-- The terminals that are kept in a tree. Blanks, `#` and `=` are passed over. -/
inductive Terminal
  | directiveKey
  | directiveValue
  | keyword
  | arguments
  | variableName
  | valueChunk
  | doubleQuoted
  | singleQuoted
  | environmentRest
deriving DecidableEq

namespace Terminal

/-- Every terminal. -/
def all : List Terminal :=
  [.directiveKey, .directiveValue, .keyword, .arguments, .variableName, .valueChunk,
    .doubleQuoted, .singleQuoted, .environmentRest]

/-- The name that a terminal goes by in an outline. -/
def name : Terminal → String
  | .directiveKey => "DIRECTIVE_KEY"
  | .directiveValue => "DIRECTIVE_VALUE"
  | .keyword => "KEYWORD"
  | .arguments => "ARGUMENTS"
  | .variableName => "VAR_NAME"
  | .valueChunk => "VALUE_CHUNK"
  | .doubleQuoted => "STRING_DQ"
  | .singleQuoted => "STRING_SQ"
  | .environmentRest => "ENV_REST"

/-- The terminal of a name. -/
def ofName? (name : String) : Option Terminal := all.find? (·.name == name)

end Terminal

/-! ## Character classes -/

/-- A keyword is a run of these. -/
def isKeywordChar (c : Char) : Bool := !isBlank c

/-- A directive key starts with an ASCII letter. -/
def isKeyStart (c : Char) : Bool := c.isAlpha

/-- A directive key goes on with ASCII letters, digits, `_` and `-`. -/
def isKeyChar (c : Char) : Bool := c.isAlphanum || c == '_' || c == '-'

/-- The name of a declared variable is a run of these. -/
def isVariableChar (c : Char) : Bool := !isBlank c && c != '='

/-- An unquoted piece of a value is a run of these. -/
def isChunkChar (c : Char) : Bool := !isBlank c && c != '"' && c != '\''

/-! ## Runs of arguments -/

/-- The rest of a line from a non-blank character on, without the blanks at its end.

A line feed cannot occur inside it but can be its first or its last character: the run may start
with any non-blank character, goes on to the next line feed, and takes that line feed, too, because
it is not a blank. -/
def argumentRun : List Char → Option (List Char × List Char)
  | [] => none
  | c :: rest =>
    if isBlank c then none
    else
      let line := rest.takeWhile (· != '\n')
      match rest.dropWhile (· != '\n') with
      | lineFeed :: after => some (c :: line ++ [lineFeed], after)
      | [] => some (c :: trimEnd line, line.drop (trimEnd line).length)

theorem drop_trimEnd (s : List Char) : trimEnd s ++ s.drop (trimEnd s).length = s := by
  obtain ⟨blanks, _, h⟩ := trimEnd_append_blanks s
  have hdrop := congrArg (List.drop (trimEnd s).length) h
  rw [List.drop_left] at hdrop
  rw [← hdrop, h]

/-- The run and the rest are the text. -/
theorem argumentRun_append {s run rest : List Char} (h : argumentRun s = some (run, rest)) :
    run ++ rest = s := by
  cases s with
  | nil => simp [argumentRun] at h
  | cons c tail =>
    have hsplit := List.takeWhile_append_dropWhile (p := (· != '\n')) (l := tail)
    simp only [argumentRun] at h
    split at h
    · simp at h
    · split at h
      next lineFeed after hd =>
        obtain ⟨rfl, rfl⟩ := by simpa using h
        rw [hd] at hsplit
        simpa using hsplit
      next hd =>
        obtain ⟨rfl, rfl⟩ := by simpa using h
        rw [hd, List.append_nil] at hsplit
        rw [hsplit, List.cons_append, drop_trimEnd]

end Dockerfile
