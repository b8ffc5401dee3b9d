import Dockerfile.Proofs.Document.Instructions
import Dockerfile.Proofs.Instruction.Words

/-!
# The variable table of a document

Whatever the text is, its variable table is in order. Each instruction is noted with its stage,
which counts the `FROM`s at the top level. The declarations stand in the order of the text, and each
of them belongs to the stage of its line. Its name is found in the logical text where the
declaration says, between the word of the instruction and the end of the arguments.

* `Declaration.PlacedIn`, `TableInOrder` — what this means
* `Document.stages_eq`, `Document.stageOf_eq` — the stages, by counting `FROM`s
* `Document.table_inOrder` — every table is in order
-/

namespace Dockerfile

/-! ## Order -/

/-- The name of the declaration stands in the text, behind the word of the command; the text of the
declaration covers the name and stays inside the arguments. -/
structure Declaration.PlacedIn (x : Declaration) (text : List Char) (c : Command) : Prop where
  text_eq : ∃ front back, text = front ++ (x.name ++ back) ∧ front.length = x.start
  wordEnd_lt_start : c.wordEnd < x.start
  start_lt_stop : x.start < x.stop
  stop_le_extent : x.stop ≤ x.extent
  extent_le : x.extent ≤ c.argumentsEnd

/-- The entry is a `FROM` at the top level. -/
def Entry.isFrom (e : Entry) : Bool := e.instruction?.any fun x => x.2.opensStage

/-- How many `FROM`s stand on the lines in front of a line. -/
def Document.fromsBefore (d : Document) (line : Nat) : Nat :=
  d.entries.countP fun e => e.isFrom && e.line.index < line

/-- The variable table is in order. -/
structure TableInOrder (d : Document) : Prop where
  /-- Each instruction is noted with its stage, the number of `FROM`s up to its line, itself
  included. -/
  stages_eq : d.table.stages = (d.entries.filterMap Entry.instruction?).map fun x =>
    (x.1, d.fromsBefore (x.1 + 1))
  /-- What is declared on the line of an instruction is what the instruction declares, in its
  stage. -/
  declaredBy_eq : ∀ e ∈ d.entries, ∀ i, e.node = .instruction i →
    d.table.declaredBy e.line.index
      = Declaration.ofCommand i.toCommand e.line.index (d.fromsBefore (e.line.index + 1))
  /-- The places of the declarations increase, by lines and then by offsets. -/
  sorted : d.table.declarations.Pairwise fun a b =>
    a.line < b.line ∨ a.line = b.line ∧ a.start < b.start
  /-- On one line, each name ends in front of the next one. -/
  apart : d.table.declarations.Pairwise fun a b => a.line = b.line → a.stop < b.start
  /-- A declaration belongs to the stage of its line. -/
  scope_mem : ∀ x ∈ d.table.declarations, (x.line, x.scope) ∈ d.table.stages
  /-- The scopes never decrease. -/
  scope_le : d.table.declarations.Pairwise fun a b => a.scope ≤ b.scope
  /-- Scope 0 lies in front of all `FROM`s. -/
  scope_eq_zero_iff : ∀ x ∈ d.table.declarations,
    x.scope = 0 ↔ ∀ e ∈ d.entries, e.isFrom = true → x.line < e.line.index
  /-- What an instruction triggers opens no stage and declares nothing. -/
  triggered : ∀ e ∈ d.entries, ∀ i c, e.node = .instruction i → i.trigger = some c →
    (e.line.index, d.fromsBefore e.line.index) ∈ d.table.stages
      ∧ ∀ x ∈ d.table.declarations, x.line ≠ e.line.index
  /-- A declaration is made by an `ARG` or `ENV`, and its name stands on the line of that. -/
  placed : ∀ x ∈ d.table.declarations, ∃ e ∈ d.entries, ∃ i, e.line.index = x.line
    ∧ e.node = .instruction i ∧ i.known? = some x.declarer.keyword
    ∧ x.PlacedIn e.line.text i.toCommand

/-! ## Declarations on their lines -/

/-- **What a command declares is placed in its text.** -/
theorem Declaration.placedIn_of_mem_ofCommand {text : List Char} {c : Command}
    (hparse : Command.parse 0 text = some c) {line scope : Nat} {x : Declaration}
    (h : x ∈ ofCommand c line scope) : x.PlacedIn text c := by
  obtain ⟨hne, front, back, harguments, hstart⟩ := exists_of_mem_ofCommand h
  obtain ⟨before, behind, htext, hbefore⟩ := Command.exists_append hparse
  have hspan := span_of_mem_ofCommand h
  have hextent := extent_of_mem_ofCommand h
  refine ⟨⟨before ++ front, back ++ behind, ?_, ?_⟩, ?_, hspan.2.1, hextent.1, hextent.2⟩
  · rw [htext, harguments]
    simp only [List.append_assoc]
  · rw [List.length_append, hstart, hbefore, Nat.zero_add]
  · have hword := Command.wordEnd_lt_argumentsStart hparse (by simp [harguments, hne])
    omega

namespace Document

variable {s : List Char} {e : Entry}

/-! ## Counting -/

/-- The `FROM`s are counted among the instructions. -/
theorem fromsBefore_eq (d : Document) (line : Nat) : d.fromsBefore line
    = (d.entries.filterMap Entry.instruction?).countP fun x => x.2.opensStage && x.1 < line := by
  rw [fromsBefore, List.countP_filterMap]
  refine List.countP_congr fun e _ => ?_
  rw [Entry.isFrom]
  cases he : e.instruction? with
  | none => simp
  | some x => simp [(Entry.of_instruction? he).1]

/-- A line without `FROM` does not count. -/
theorem fromsBefore_succ_of_not (he : e ∈ (ofText s).entries) (hnot : e.isFrom = false) :
    (ofText s).fromsBefore (e.line.index + 1) = (ofText s).fromsBefore e.line.index := by
  refine List.countP_congr fun a ha => ?_
  simp only [Bool.and_eq_true, decide_eq_true_eq]
  refine and_congr_right fun hfrom => ?_
  have hne : a.line.index ≠ e.line.index := by
    intro heq
    rw [entry_ext ha he heq, hnot] at hfrom
    cases hfrom
  omega

theorem fromsBefore_eq_zero_iff (d : Document) (line : Nat) : d.fromsBefore (line + 1) = 0
    ↔ ∀ e ∈ d.entries, e.isFrom = true → line < e.line.index := by
  rw [fromsBefore, List.countP_eq_zero]
  refine forall_congr' fun e => forall_congr' fun _ => ?_
  simp only [Bool.and_eq_true, decide_eq_true_eq, not_and]
  exact forall_congr' fun _ => by omega

/-- **The stages of a document**: the number of `FROM`s up to each instruction. -/
theorem stages_eq (s : List Char) : (ofText s).table.stages
    = ((ofText s).entries.filterMap Entry.instruction?).map fun x =>
      (x.1, (ofText s).fromsBefore (x.1 + 1)) := by
  have hstages : (ofText s).table.stages = _ :=
    VariableTable.stages_after 0 (sorted_instructions s)
  rw [hstages]
  refine List.map_congr_left fun x _ => ?_
  rw [Nat.zero_add, fromsBefore_eq]
  rfl

/-- The stage of the line of an instruction. -/
theorem stageOf_eq (he : e ∈ (ofText s).entries) {i : Instruction} (hi : e.node = .instruction i) :
    (ofText s).table.stageOf e.line.index = (ofText s).fromsBefore (e.line.index + 1) := by
  have hnoted : (e.line.index, (ofText s).fromsBefore (e.line.index + 1))
      ∈ (ofText s).table.stages := by
    rw [stages_eq]
    exact List.mem_map_of_mem (mem_instructions he hi)
  unfold VariableTable.stageOf
  split
  next line stage hfind =>
    have hmem := List.mem_of_find?_eq_some hfind
    rw [stages_eq] at hmem
    obtain ⟨x, -, heq⟩ := List.mem_map.mp hmem
    obtain ⟨hline, hstage⟩ := Prod.mk.inj heq
    have hsame : line = e.line.index := Int.ofNat_inj.mp (by simpa using List.find?_some hfind)
    rw [← hstage, hline, hsame]
  next hnone =>
    have hnot := List.find?_eq_none.mp hnone _ hnoted
    simp at hnot

/-! ## Main statement -/

/-- The declarations of a document are in the order of their places, and names do not touch. -/
theorem sorted_declarations (s : List Char) : (ofText s).table.declarations.Pairwise
    fun a b => a.line < b.line ∨ a.line = b.line ∧ a.stop < b.start :=
  VariableTable.sorted_after 0 (sorted_instructions s)

/-- **Every variable table is in order.** -/
theorem table_inOrder (s : List Char) : TableInOrder (ofText s) where
  stages_eq := stages_eq s
  declaredBy_eq e he i hi := by rw [← stageOf_eq he hi, declaredBy_eq he hi]
  sorted := (sorted_declarations s).imp fun hab =>
    hab.imp_right (And.imp_right (Nat.lt_of_le_of_lt (Nat.le_add_right _ _)))
  apart := (sorted_declarations s).imp fun hab hline =>
    (hab.resolve_left (Nat.not_lt_of_le (Nat.le_of_eq hline.symm))).2
  scope_mem x hx := VariableTable.mem_stages_of_mem_after hx
  scope_le := VariableTable.sorted_scope_after 0 _
  scope_eq_zero_iff x hx := by
    have hscope : (x.line, x.scope) ∈ (ofText s).table.stages :=
      VariableTable.mem_stages_of_mem_after hx
    rw [stages_eq] at hscope
    obtain ⟨y, -, heq⟩ := List.mem_map.mp hscope
    obtain ⟨hline, hcount⟩ := Prod.mk.inj heq
    rw [← hcount, ← hline]
    exact fromsBefore_eq_zero_iff _ _
  triggered e he i c hi ht := by
    have honbuild := (Instruction.trigger_eq_some (parse_of_instruction he hi) ht).1
    have hnot : e.isFrom = false := by
      simp [Entry.isFrom, Entry.instruction?, hi, Instruction.opensStage, honbuild]
    constructor
    · rw [stages_eq, ← fromsBefore_succ_of_not he hnot]
      exact List.mem_map_of_mem (mem_instructions he hi)
    · intro x hx hline
      obtain ⟨e', he', j, hindex, hnode, hmem⟩ := exists_of_mem_declarations hx
      obtain rfl := entry_ext he' he (hindex.trans hline)
      obtain rfl := Node.instruction.inj (hnode.symm.trans hi)
      -- `ONBUILD` is neither of the two instructions that declare
      have hknown := Declaration.known?_of_mem_ofCommand hmem
      rw [honbuild] at hknown
      cases hdeclarer : x.declarer <;> rw [hdeclarer] at hknown <;> cases hknown
  placed x hx := by
    obtain ⟨e, he, i, hindex, hnode, hmem⟩ := exists_of_mem_declarations hx
    have hparse := Instruction.parse_toCommand (parse_of_instruction he hnode)
    exact ⟨e, he, i, hindex, hnode, Declaration.known?_of_mem_ofCommand hmem,
      Declaration.placedIn_of_mem_ofCommand hparse hmem⟩

/-- A declaration in front of the first stage, and a `FROM` that is triggered and does not count. -/
example :
    let d := ofText "ARG g\nFROM x\nONBUILD FROM y\nENV a=1 b=2".toList
    d.table.stages = [(0, 0), (1, 1), (2, 1), (3, 1)]
      ∧ d.table.declarations.map (fun x => (x.line, x.start, x.scope))
        = [(0, 4, 0), (3, 4, 1), (3, 8, 1)] := by
  decide +kernel

end Document

end Dockerfile
