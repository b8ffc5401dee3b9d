import Mathlib.Data.List.Forall2
import Dockerfile.Proofs.Instruction.LetterCase
import Dockerfile.Proofs.Variable.Renumber

/-!
# Variables and the case of keywords

Two instructions may be the same but for the case of their keywords. Then what they declare and the
references on them are the same. The keyword of a trigger is part of the arguments, where references
are looked for; but no keyword holds a dollar sign, and no trigger declares a variable.

* `Instruction.SameButCase` — what two such instructions have in common
* `VariableTable.after_congr`, `VariableTable.references_congr` — what is kept of them is the same
-/

namespace Dockerfile

/-- The instructions are the same in lower case, and their arguments are the same but for the case
of a keyword that `ONBUILD` triggers, which stands at their start. -/
structure Instruction.SameButCase (i i' : Instruction) : Prop where
  small_eq : i'.small = i.small
  arguments_eq : i'.arguments = i.arguments ∨ i.known? = some .onbuild
    ∧ ∃ front front' rest, i.arguments = front ++ rest ∧ i'.arguments = front' ++ rest
      ∧ lowerCase front' = lowerCase front ∧ '$' ∉ front

/-! ## References -/

namespace Reference

variable {e : Escape} {line : Nat}

/-- Of the character in front of a text, it only counts whether it is the escape character. -/
theorem search_of_isEscaped {escape : List Char} {p p' : Option Char}
    (h : isEscaped escape p' = isEscaped escape p) (offset : Nat) (s : List Char) :
    search escape line p' offset s = search escape line p offset s := by
  cases s with
  | nil => rw [search, search]
  | cons c s =>
    by_cases hc : c = '$'
    · subst hc
      cases hform : ReferenceForm.afterDollar? s with
      | none => rw [search_of_none hform, search_of_none hform]
      | some x => rw [search_of_some hform, search_of_some hform, h]
    · rw [search, search, if_neg hc, if_neg hc]

theorem isEscaped_toLower (e : Escape) (c : Char) :
    isEscaped e.text (some c.toLower) = isEscaped e.text (some c) := by
  rw [Bool.eq_iff_iff]
  simp [isEscaped, Escape.text, toLower_eq_iff e.isAlpha_char]

/-- In front of the first dollar sign the case of letters does not count. -/
theorem search_append_congr {front front' : List Char}
    (hcase : lowerCase front' = lowerCase front) (hfront : '$' ∉ front) {p p' : Option Char}
    (hp : isEscaped e.text p' = isEscaped e.text p) (offset : Nat) (rest : List Char) :
    search e.text line p' offset (front' ++ rest)
      = search e.text line p offset (front ++ rest) := by
  induction front generalizing front' p p' offset with
  | nil =>
    obtain rfl := (lowerCase_eq_nil _).mp hcase
    exact search_of_isEscaped hp offset rest
  | cons c front ih =>
    obtain ⟨c', more, rfl, hc, hmore⟩ := List.map_eq_cons_iff.mp hcase
    obtain ⟨hdollar, hfront⟩ := not_or.mp (List.mem_cons.not.mp hfront)
    have hnot : c ≠ '$' := fun h => hdollar h.symm
    have hnot' : c' ≠ '$' := by
      intro h
      rw [h] at hc
      exact hnot ((toLower_eq_iff (by decide)).mp hc.symm)
    rw [List.cons_append, List.cons_append, search, search, if_neg hnot, if_neg hnot']
    refine ih hmore hfront ?_ (offset + 1)
    rw [← isEscaped_toLower e c', hc, isEscaped_toLower]

end Reference

/-! ## Instructions that are the same but for case -/

namespace Instruction.SameButCase

variable {i i' : Instruction} (h : i.SameButCase i')

include h

theorem known?_eq : i'.known? = i.known? := by
  rw [← i'.known?_small, h.small_eq, i.known?_small]

theorem argumentsStart_eq : i'.argumentsStart = i.argumentsStart :=
  Instruction.argumentsStart_of_small h.small_eq

/-- They declare the same. -/
theorem ofCommand_eq (line scope : Nat) :
    Declaration.ofCommand i'.toCommand line scope
      = Declaration.ofCommand i.toCommand line scope := by
  unfold Declaration.ofCommand
  rw [h.known?_eq]
  rcases h.arguments_eq with harguments | ⟨honbuild, -⟩
  · have hend : i'.argumentsEnd = i.argumentsEnd := by
      rw [Command.argumentsEnd, Command.argumentsEnd, harguments, h.argumentsStart_eq]
    have hnamed : Declaration.ofNamed i'.toCommand = Declaration.ofNamed i.toCommand := by
      funext declarer line scope n
      simp only [Declaration.ofNamed, h.argumentsStart_eq]
    rw [hend, harguments, hnamed]
  · rw [honbuild]
    rfl

/-- They have the same references. -/
theorem find_eq (e : Escape) (line : Nat) :
    Reference.find e.text line i'.argumentsStart i'.arguments
      = Reference.find e.text line i.argumentsStart i.arguments := by
  rw [h.argumentsStart_eq]
  rcases h.arguments_eq with harguments | ⟨-, front, front', rest, hi, hi', hcase, hfront⟩
  · rw [harguments]
  · rw [hi, hi']
    exact Reference.search_append_congr hcase hfront rfl _ rest

end Instruction.SameButCase

/-! ## The table -/

namespace VariableTable

/-- **The tables of instructions that are the same but for case are the same.** -/
theorem after_congr {is is' : List (Nat × Instruction)}
    (h : List.Forall₂ (fun x x' => x'.1 = x.1 ∧ x.2.SameButCase x'.2) is is') (stage : Nat) :
    after stage is' = after stage is := by
  induction h generalizing stage with
  | nil => rfl
  | @cons x x' is is' hx _ ih =>
    obtain ⟨line, i⟩ := x
    obtain ⟨line', i'⟩ := x'
    obtain ⟨rfl, hsame⟩ := hx
    have hstage : nextStage stage i' = nextStage stage i := by
      rw [nextStage, nextStage, hsame.known?_eq]
    rw [after, after, hstage, hsame.ofCommand_eq, ih]

/-- **The references on instructions that are the same but for case are the same.** -/
theorem references_congr (t : VariableTable) (e : Escape) {is is' : List (Nat × Instruction)}
    (h : List.Forall₂ (fun x x' => x'.1 = x.1 ∧ x.2.SameButCase x'.2) is is') :
    is'.map (fun x => (x.1, t.references e.text x.1 x.2.toCommand))
      = is.map fun x => (x.1, t.references e.text x.1 x.2.toCommand) := by
  induction h with
  | nil => rfl
  | @cons x x' is is' hx _ ih =>
    rw [List.map_cons, List.map_cons, ih, hx.1, references, references, hx.2.find_eq]

end VariableTable

end Dockerfile
