import Dockerfile.Proofs.Variable.Table

/-!
# Instructions further down

What the table has for a line, its stage, its declarations and what its references see, does not
depend on the instructions below the line: they only add declarations and stages at the end, and
none of them is looked at.

* `exists_after_append` — the table of more instructions starts with that of the first ones
* `resolve_append`, `references_append` — further instructions are not seen from above
-/

namespace Dockerfile

/-- What fails the test is not taken. -/
theorem takeWhile_append_of_not {α : Type} {p : α → Bool} {bs : List α}
    (h : ∀ b ∈ bs, p b = false) (as : List α) : (as ++ bs).takeWhile p = as.takeWhile p := by
  induction as with
  | nil =>
    cases bs with
    | nil => rfl
    | cons b bs => exact List.takeWhile_cons_of_neg (by simp [h b])
  | cons a as ih => rw [List.cons_append, List.takeWhile_cons, List.takeWhile_cons, ih]

namespace VariableTable

/-- The stages are those of the instructions. -/
theorem map_fst_stages_after (stage : Nat) (is : List (Nat × Instruction)) :
    (after stage is).stages.map Prod.fst = is.map Prod.fst := by
  induction is generalizing stage with
  | nil => rfl
  | cons head more ih =>
    obtain ⟨line, i⟩ := head
    exact congrArg (line :: ·) (ih _)

/-- **The table of more instructions starts with that of the first ones.** -/
theorem exists_after_append (stage : Nat) (as bs : List (Nat × Instruction)) :
    ∃ stage', after stage (as ++ bs)
      = ⟨(after stage as).declarations ++ (after stage' bs).declarations,
        (after stage as).stages ++ (after stage' bs).stages⟩ := by
  induction as generalizing stage with
  | nil => exact ⟨stage, rfl⟩
  | cons head as ih =>
    obtain ⟨line, i⟩ := head
    obtain ⟨stage', htable⟩ := ih (nextStage stage i)
    refine ⟨stage', ?_⟩
    rw [List.cons_append, after, htable, after]
    simp only [List.append_assoc, List.cons_append]

/-! ## From above -/

section Below

variable {as bs : List (Nat × Instruction)} {line : Nat} (h : ∀ x ∈ bs, line < x.1)

include h

/-- Instructions below a line declare below it. -/
theorem lt_of_mem_after {stage : Nat} {d : Declaration} (hd : d ∈ (after stage bs).declarations) :
    line < d.line := by
  obtain ⟨x, hx, hline⟩ := List.mem_map.mp (of_mem_after hd).2
  exact hline ▸ h x hx

theorem declaredBy_append :
    (ofInstructions (as ++ bs)).declaredBy line = (ofInstructions as).declaredBy line := by
  obtain ⟨stage', htable⟩ := exists_after_append 0 as bs
  unfold ofInstructions declaredBy
  rw [htable, List.filter_append]
  have hnone : (after stage' bs).declarations.filter (fun d => (d.line : Int) == line) = [] := by
    rw [List.filter_eq_nil_iff]
    intro d hd
    have := lt_of_mem_after h hd
    simp only [beq_iff_eq]
    omega
  rw [hnone, List.append_nil]

theorem stageOf_append :
    (ofInstructions (as ++ bs)).stageOf line = (ofInstructions as).stageOf line := by
  obtain ⟨stage', htable⟩ := exists_after_append 0 as bs
  unfold ofInstructions stageOf
  rw [htable, List.find?_append]
  have hnone : (after stage' bs).stages.find? (fun s => (s.1 : Int) == line) = none := by
    rw [List.find?_eq_none]
    intro x hx
    have hmem : x.1 ∈ bs.map Prod.fst := map_fst_stages_after stage' bs ▸ List.mem_map_of_mem hx
    obtain ⟨y, hy, heq⟩ := List.mem_map.mp hmem
    have := h y hy
    simp only [beq_iff_eq]
    omega
  rw [hnone, Option.or_none]

/-- **Declarations below a line are not seen from it.** -/
theorem resolve_append (name : List Char) (offset? : Option Int) :
    (ofInstructions (as ++ bs)).resolve name line offset?
      = (ofInstructions as).resolve name line offset? := by
  have hseen : (ofInstructions (as ++ bs)).declarations.takeWhile (fun d => (d.line : Int) ≤ line)
      = (ofInstructions as).declarations.takeWhile fun d => (d.line : Int) ≤ line := by
    obtain ⟨stage', htable⟩ := exists_after_append 0 as bs
    unfold ofInstructions
    rw [htable]
    refine takeWhile_append_of_not (fun d hd => ?_) _
    have := lt_of_mem_after h hd
    simp only [decide_eq_false_iff_not]
    omega
  unfold resolve
  rw [hseen, stageOf_append h]

/-- **The references on a line see the same.** -/
theorem references_append (escape : List Char) (c : Command) :
    (ofInstructions (as ++ bs)).references escape line c
      = (ofInstructions as).references escape line c := by
  refine List.map_congr_left fun r hr => ?_
  rw [Reference.line_of_mem_search hr, resolve_append h]

end Below

end VariableTable

end Dockerfile
