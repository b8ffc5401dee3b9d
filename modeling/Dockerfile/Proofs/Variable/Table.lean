import Dockerfile.Proofs.Variable.Names

/-!
# The order of the variable table

The table is built in one pass over the instructions. The pass keeps two orders: the declarations
are in the order of their places if the lines of the instructions increase, and the scopes never
decrease at all, because only a `FROM` changes the stage, and it counts up. So the stage that is
noted for a line is the number of `FROM`s up to there, and a declaration belongs to the stage of its
line.

* `sorted_after`, `sorted_scope_after` — the two orders
* `stages_after`, `mem_stages_of_mem_after` — the stages in closed form, and the scopes
* `declaredBy_after` — what the table has for a line is what the instruction on it declares
-/

namespace Dockerfile

/-! ## One instruction -/

namespace Declaration

/-- Only the extent of a declaration depends on its neighbours. -/
theorem mem_withExtents {stop : Nat} {ds : List Declaration} {d : Declaration}
    (h : d ∈ withExtents stop ds) : ∃ d₀ ∈ ds, d = { d₀ with extent := d.extent } := by
  fun_induction withExtents stop ds with
  | case1 => simp at h
  | case2 d₀ =>
    obtain rfl := List.mem_singleton.mp h
    exact ⟨d₀, by simp, rfl⟩
  | case3 d₀ next more ih =>
    rcases List.mem_cons.mp h with rfl | h
    · exact ⟨d₀, by simp, rfl⟩
    · obtain ⟨d₁, hd₁, he⟩ := ih h
      exact ⟨d₁, List.mem_cons_of_mem _ hd₁, he⟩

/-- A command declares on its own line and in the scope it is given. -/
theorem line_scope_of_mem_ofCommand {c : Command} {line scope : Nat} {d : Declaration}
    (h : d ∈ ofCommand c line scope) : d.line = line ∧ d.scope = scope := by
  unfold ofCommand at h
  split at h
  · simp at h
  · obtain ⟨d₀, hd₀, he⟩ := mem_withExtents h
    obtain ⟨n, -, rfl⟩ := List.mem_map.mp hd₀
    rw [he]
    exact ⟨rfl, rfl⟩

/-- A declaration is made by the instruction that its kind of declaration belongs to. -/
theorem known?_of_mem_ofCommand {c : Command} {line scope : Nat} {d : Declaration}
    (h : d ∈ ofCommand c line scope) : c.known? = some d.declarer.keyword := by
  unfold ofCommand at h
  split at h
  · simp at h
  next declarer hdeclarer =>
    obtain ⟨d₀, hd₀, he⟩ := mem_withExtents h
    obtain ⟨n, -, rfl⟩ := List.mem_map.mp hd₀
    obtain ⟨k, hk, hdeclarer⟩ := Option.bind_eq_some_iff.mp hdeclarer
    rw [he, hk]
    cases k <;> cases hdeclarer <;> rfl

end Declaration

/-- The instruction is a `FROM`, which opens a stage. -/
def Instruction.opensStage (i : Instruction) : Bool := i.known? == some .from

namespace VariableTable

/-! ## The pass over the instructions -/

theorem le_nextStage (stage : Nat) (i : Instruction) : stage ≤ nextStage stage i := by
  unfold nextStage
  split <;> omega

/-- A declaration comes from an instruction of the list, in a stage not before the first one. -/
theorem of_mem_after {stage : Nat} {is : List (Nat × Instruction)} {d : Declaration}
    (h : d ∈ (after stage is).declarations) : stage ≤ d.scope ∧ d.line ∈ is.map Prod.fst := by
  induction is generalizing stage with
  | nil => simp [after] at h
  | cons head more ih =>
    obtain ⟨line, i⟩ := head
    rcases List.mem_append.mp h with h | h
    · obtain ⟨hline, hscope⟩ := Declaration.line_scope_of_mem_ofCommand h
      exact ⟨hscope ▸ le_nextStage stage i, by simp [hline]⟩
    · obtain ⟨hstage, hline⟩ := ih h
      exact ⟨Nat.le_trans (le_nextStage stage i) hstage, List.mem_cons_of_mem _ hline⟩

/-- **A declaration is made by the instruction on its line.** -/
theorem exists_of_mem_after {stage : Nat} {is : List (Nat × Instruction)} {d : Declaration}
    (h : d ∈ (after stage is).declarations) :
    ∃ i, (d.line, i) ∈ is ∧ d ∈ Declaration.ofCommand i.toCommand d.line d.scope := by
  induction is generalizing stage with
  | nil => simp [after] at h
  | cons head more ih =>
    obtain ⟨line, i⟩ := head
    rcases List.mem_append.mp h with h | h
    · obtain ⟨rfl, hscope⟩ := Declaration.line_scope_of_mem_ofCommand h
      exact ⟨i, List.mem_cons_self .., hscope ▸ h⟩
    · obtain ⟨j, hj, hd⟩ := ih h
      exact ⟨j, List.mem_cons_of_mem _ hj, hd⟩

theorem sorted_scope_after (stage : Nat) (is : List (Nat × Instruction)) :
    (after stage is).declarations.Pairwise (fun a b => a.scope ≤ b.scope) := by
  induction is generalizing stage with
  | nil => exact List.Pairwise.nil
  | cons head more ih =>
    obtain ⟨line, i⟩ := head
    refine List.pairwise_append.mpr ⟨?_, ih _, ?_⟩
    · refine List.pairwise_of_forall_mem_list fun a ha b hb => ?_
      simp only [(Declaration.line_scope_of_mem_ofCommand ha).2,
        (Declaration.line_scope_of_mem_ofCommand hb).2, Nat.le_refl]
    · intro a ha b hb
      rw [(Declaration.line_scope_of_mem_ofCommand ha).2]
      exact (of_mem_after hb).1

/-- **The declarations are in the order of their places**, and names do not touch. -/
theorem sorted_after (stage : Nat) {is : List (Nat × Instruction)}
    (h : (is.map Prod.fst).Pairwise (· < ·)) : (after stage is).declarations.Pairwise
      (fun a b => a.line < b.line ∨ a.line = b.line ∧ a.stop < b.start) := by
  induction is generalizing stage with
  | nil => exact List.Pairwise.nil
  | cons head more ih =>
    obtain ⟨line, i⟩ := head
    obtain ⟨hhead, hmore⟩ := List.pairwise_cons.mp h
    refine List.pairwise_append.mpr ⟨?_, ih _ hmore, ?_⟩
    · refine (Declaration.sorted_ofCommand ..).imp_of_mem fun {a b} ha hb hab => Or.inr ⟨?_, hab⟩
      rw [(Declaration.line_scope_of_mem_ofCommand ha).1,
        (Declaration.line_scope_of_mem_ofCommand hb).1]
    · intro a ha b hb
      rw [(Declaration.line_scope_of_mem_ofCommand ha).1]
      exact Or.inl (hhead _ (of_mem_after hb).2)

theorem sorted_line_after (stage : Nat) {is : List (Nat × Instruction)}
    (h : (is.map Prod.fst).Pairwise (· < ·)) :
    (after stage is).declarations.Pairwise (fun a b => a.line ≤ b.line) :=
  (sorted_after stage h).imp fun hab => by omega

/-! ## Stages -/

theorem nextStage_eq (stage : Nat) (i : Instruction) :
    nextStage stage i = stage + if i.opensStage = true then 1 else 0 := by
  simp only [nextStage, Instruction.opensStage, beq_iff_eq]
  split <;> rfl

/-- **The stage of an instruction is the number of `FROM`s up to its line**, counted on from the
stage in front. -/
theorem stages_after (stage : Nat) {is : List (Nat × Instruction)}
    (h : (is.map Prod.fst).Pairwise (· < ·)) : (after stage is).stages = is.map fun x =>
      (x.1, stage + is.countP fun y => y.2.opensStage && y.1 < x.1 + 1) := by
  induction is generalizing stage with
  | nil => rfl
  | cons head more ih =>
    obtain ⟨line, i⟩ := head
    obtain ⟨hhead, hmore⟩ := List.pairwise_cons.mp h
    have hlater : ∀ x ∈ more, line < x.1 := fun x hx => hhead x.1 (List.mem_map_of_mem hx)
    rw [after, ih _ hmore, List.map_cons, nextStage_eq]
    refine congrArg₂ List.cons (Prod.ext rfl ?_) (List.map_congr_left fun x hx => Prod.ext rfl ?_)
    · -- the instructions behind this one are on later lines
      have hnone : more.countP (fun y => y.2.opensStage && y.1 < line + 1) = 0 := by
        refine List.countP_eq_zero.mpr fun y hy => ?_
        have := hlater y hy
        simp only [Bool.and_eq_true, decide_eq_true_eq, not_and]
        omega
      rw [List.countP_cons, hnone, Nat.zero_add]
      simp only [Nat.lt_succ_self, decide_true, Bool.and_true]
    · have := hlater x hx
      simp only [List.countP_cons, Bool.and_eq_true, decide_eq_true_eq,
        show line < x.1 + 1 by omega, and_true]
      omega

/-- **A declaration belongs to the stage of its line.** -/
theorem mem_stages_of_mem_after {stage : Nat} {is : List (Nat × Instruction)} {d : Declaration}
    (h : d ∈ (after stage is).declarations) : (d.line, d.scope) ∈ (after stage is).stages := by
  induction is generalizing stage with
  | nil => simp [after] at h
  | cons head more ih =>
    obtain ⟨line, i⟩ := head
    rcases List.mem_append.mp h with h | h
    · obtain ⟨hline, hscope⟩ := Declaration.line_scope_of_mem_ofCommand h
      rw [hline, hscope]
      exact List.mem_cons_self ..
    · exact List.mem_cons_of_mem _ (ih h)

/-! ## Looking up a line -/

theorem stageOf_after_cons (stage line : Nat) (i : Instruction) (more : List (Nat × Instruction)) :
    (after stage ((line, i) :: more)).stageOf line = nextStage stage i := by
  simp [after, stageOf]

theorem stageOf_after_cons_of_ne {stage line other : Nat} (h : line ≠ other) (i : Instruction)
    (more : List (Nat × Instruction)) :
    (after stage ((line, i) :: more)).stageOf other
      = (after (nextStage stage i) more).stageOf other := by
  simp only [after, stageOf]
  rw [List.find?_cons_of_neg (by simp only [beq_iff_eq]; omega)]

/-- **What the table has for a line is what the instruction on it declares.** -/
theorem declaredBy_after (stage : Nat) {is : List (Nat × Instruction)}
    (h : (is.map Prod.fst).Pairwise (· < ·)) {line : Nat} {i : Instruction}
    (hi : (line, i) ∈ is) :
    (after stage is).declaredBy line
      = Declaration.ofCommand i.toCommand line ((after stage is).stageOf line) := by
  induction is generalizing stage with
  | nil => simp at hi
  | cons head more ih =>
    obtain ⟨first, j⟩ := head
    obtain ⟨hhead, hmore⟩ := List.pairwise_cons.mp h
    show List.filter _ (Declaration.ofCommand j.toCommand first (nextStage stage j) ++ _) = _
    rw [List.filter_append]
    rcases List.mem_cons.mp hi with he | hi
    · obtain ⟨rfl, rfl⟩ := Prod.mk.inj he
      rw [stageOf_after_cons, List.filter_eq_self.mpr, List.filter_eq_nil_iff.mpr,
        List.append_nil]
      · intro d hd
        have := hhead _ (of_mem_after hd).2
        simp only [beq_iff_eq, Int.natCast_inj]
        omega
      · intro d hd
        simp [(Declaration.line_scope_of_mem_ofCommand hd).1]
    · have hlt : first < line := hhead _ (List.mem_map_of_mem hi)
      rw [stageOf_after_cons_of_ne (Nat.ne_of_lt hlt), ← ih _ hmore hi,
        List.filter_eq_nil_iff.mpr, List.nil_append]
      · rfl
      · intro d hd
        rw [(Declaration.line_scope_of_mem_ofCommand hd).1]
        simp only [beq_iff_eq, Int.natCast_inj]
        omega

end VariableTable

end Dockerfile
