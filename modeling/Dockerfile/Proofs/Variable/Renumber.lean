import Mathlib.Order.Monotone.Basic
import Dockerfile.Variable.Table

/-!
# Other numbers for the lines

The numbers of the logical lines say which line comes first and nothing else. If they are replaced
by others in the same order, then the variable table has the same declarations under the new
numbers, and what a reference sees is the same declaration under its new number.

* `VariableTable.after_renumber` — the table of instructions under new numbers
* `VariableTable.resolve_renumber`, `VariableTable.references_renumber` — what is seen in it
-/

namespace Dockerfile

/-! ## New numbers -/

section Renumber

variable (f : Nat → Nat)

/-- The declaration under the new number of its line. -/
def Declaration.renumber (d : Declaration) : Declaration := { d with line := f d.line }

/-- The reference under the new number of its line. -/
def Reference.renumber (r : Reference) : Reference := { r with line := f r.line }

/-- The reference and the declaration that it sees under the new numbers of their lines. -/
def ResolvedReference.renumber (r : ResolvedReference) : ResolvedReference :=
  { r.toReference.renumber f with declaration := r.declaration.map (Declaration.renumber f) }

/-- The table under the new numbers of the lines. -/
def VariableTable.renumber (t : VariableTable) : VariableTable where
  declarations := t.declarations.map (Declaration.renumber f)
  stages := t.stages.map fun x => (f x.1, x.2)

end Renumber

variable {f : Nat → Nat}

/-! ## One instruction -/

namespace Declaration

theorem withExtents_renumber (stop : Nat) (ds : List Declaration) :
    withExtents stop (ds.map (renumber f)) = (withExtents stop ds).map (renumber f) := by
  fun_induction withExtents stop ds with
  | case1 => rfl
  | case2 d => rfl
  | case3 d next more ih =>
    rw [List.map_cons, List.map_cons, withExtents, ← List.map_cons, ih]
    rfl

/-- On a line with a new number a command declares the same. -/
theorem ofCommand_renumber (c : Command) (line scope : Nat) :
    ofCommand c (f line) scope = (ofCommand c line scope).map (renumber f) := by
  unfold ofCommand
  split
  next => rfl
  next declarer _ =>
    rw [← withExtents_renumber, List.map_map]
    rfl

end Declaration

namespace Reference

variable {escape : List Char} {line offset : Nat} {previous : Option Char} {s : List Char}

theorem search_of_none (h : ReferenceForm.afterDollar? s = none) :
    search escape line previous offset ('$' :: s)
      = search escape line (some '$') (offset + 1) s := by
  rw [search, if_pos rfl]
  split
  next => rfl
  next form rest hform => rw [h] at hform; cases hform

theorem search_of_some {form : ReferenceForm} {rest : List Char}
    (h : ReferenceForm.afterDollar? s = some (form, rest)) :
    search escape line previous offset ('$' :: s)
      = let stop := offset + form.source.length
        let more := search escape line form.source.getLast? stop rest
        if isEscaped escape previous then more else ⟨form.name, offset, stop, line⟩ :: more := by
  rw [search, if_pos rfl]
  split
  next hform => rw [h] at hform; cases hform
  next form' rest' hform =>
    rw [h] at hform
    obtain ⟨rfl, rfl⟩ := Prod.mk.inj (Option.some.inj hform)
    rfl

/-- The references of a line with a new number are the same. -/
theorem search_renumber (escape : List Char) (line : Nat) (previous : Option Char)
    (offset : Nat) (s : List Char) : search escape (f line) previous offset s
      = (search escape line previous offset s).map (renumber f) := by
  fun_induction search escape line previous offset s with
  | case1 => simp [search]
  | case2 _ _ _ hform ih => rw [search_of_none hform, ih]
  | case3 _ offset s form rest hform stop more hescaped ih =>
    rw [search_of_some hform]
    simp only [if_pos hescaped]
    exact ih
  | case4 _ offset s form rest hform stop more hescaped ih =>
    rw [search_of_some hform]
    simp only [if_neg hescaped]
    exact congrArg (_ :: ·) ih
  | case5 _ _ c s hc ih => rw [search, if_neg hc, ih]

end Reference

namespace VariableTable

/-! ## The table -/

/-- **The table of instructions under new numbers is their table under these numbers.** -/
theorem after_renumber (stage : Nat) (is : List (Nat × Instruction)) :
    after stage (is.map fun x => (f x.1, x.2)) = (after stage is).renumber f := by
  induction is generalizing stage with
  | nil => rfl
  | cons head more ih =>
    obtain ⟨line, i⟩ := head
    rw [List.map_cons, after, ih, after, Declaration.ofCommand_renumber]
    simp only [renumber, List.map_append, List.map_cons]

section Lookup

variable (hf : StrictMono f) (t : VariableTable) (line : Nat)

include hf

theorem declaredBy_renumber :
    (t.renumber f).declaredBy (f line) = (t.declaredBy line).map (Declaration.renumber f) := by
  unfold declaredBy renumber
  rw [List.filter_map]
  refine congrArg (List.map _) (List.filter_congr fun d _ => ?_)
  rw [Bool.eq_iff_iff]
  simp only [Function.comp_apply, Declaration.renumber, beq_iff_eq, Int.natCast_inj,
    hf.injective.eq_iff]

theorem stageOf_renumber : (t.renumber f).stageOf (f line) = t.stageOf line := by
  have hfind : (t.renumber f).stages.find? (fun x => (x.1 : Int) == (f line : Nat))
      = (t.stages.find? fun x => (x.1 : Int) == line).map fun x => (f x.1, x.2) := by
    rw [renumber, List.find?_map]
    congr 2
    funext x
    rw [Bool.eq_iff_iff]
    simp only [Function.comp_apply, beq_iff_eq, Int.natCast_inj, hf.injective.eq_iff]
  unfold stageOf
  rw [hfind]
  cases t.stages.find? fun x => (x.1 : Int) == line <;> rfl

/-- **A reference sees the same declaration under its new number.** -/
theorem resolve_renumber (name : List Char) (offset? : Option Int) :
    (t.renumber f).resolve name (f line) offset?
      = (t.resolve name line offset?).map (Declaration.renumber f) := by
  -- what is passed over behind the line, and what ends in front of the reference, stays the same
  have hseen :
      ((t.renumber f).declarations.takeWhile fun d => (d.line : Int) ≤ (f line : Nat)).filter
        (fun d => d.name == name && endsBefore (f line) offset? d)
      = ((t.declarations.takeWhile fun d => (d.line : Int) ≤ line).filter
        fun d => d.name == name && endsBefore line offset? d).map (Declaration.renumber f) := by
    rw [renumber, List.takeWhile_map, List.filter_map]
    congr 1
    have hends : ∀ d : Declaration,
        ((fun d => d.name == name && endsBefore (f line) offset? d) ∘ Declaration.renumber f) d
          = (d.name == name && endsBefore line offset? d) := by
      intro d
      rw [Bool.eq_iff_iff]
      simp only [Function.comp_apply, endsBefore, Declaration.renumber, Bool.and_eq_true,
        Bool.or_eq_true, bne_iff_ne, ne_eq, Int.natCast_inj, hf.injective.eq_iff]
      rfl
    rw [List.filter_congr fun d _ => hends d]
    congr 2
    funext d
    simp only [Function.comp_apply, Declaration.renumber, Int.ofNat_le, hf.le_iff_le]
  unfold resolve
  simp only
  rw [hseen, stageOf_renumber hf, List.filter_map, List.filter_map, List.getLast?_map,
    List.getLast?_map, Option.orElse_eq_orElse, Option.orElse_eq_or, Option.orElse_eq_or,
    Option.map_or]
  rfl

theorem references_renumber (escape : List Char) (c : Command) :
    (t.renumber f).references escape (f line) c
      = (t.references escape line c).map (ResolvedReference.renumber f) := by
  unfold references Reference.find
  rw [Reference.search_renumber, List.map_map, List.map_map]
  refine List.map_congr_left fun r _ => ?_
  simp only [Function.comp_apply, Reference.renumber]
  rw [resolve_renumber hf]
  rfl

end Lookup

end VariableTable

end Dockerfile
