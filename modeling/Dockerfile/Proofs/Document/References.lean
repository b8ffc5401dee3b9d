import Dockerfile.Proofs.Document.Instructions
import Dockerfile.Proofs.Instruction.Arguments
import Dockerfile.Proofs.Variable.OwnLine
import Dockerfile.Proofs.Variable.Spans

/-!
# What the references of a document see

The references on a line are those in the arguments of its instruction, and each of them is kept
with the declaration that it sees. If the instruction declares variables itself, the reference is in
the text of one of its declarations. It sees the declarations in front of that one, but not that one
or those behind it.

* `Document.arguments_of_mem_referencesOn` — references stand in the arguments
* `Document.visible_of_resolve` — what is seen is visible
* `Document.filter_visible_declaredBy` — what is visible on the line of a reference
* `Document.references_own_line` — what a reference sees, by the declaration that it stands in
-/

namespace Dockerfile

namespace Document

variable {s : List Char} {e : Entry} {i : Instruction}

/-- The order of the table: what is seen is the last visible declaration. -/
theorem resolve_eq_getLast? (s : List Char) (name : List Char) (line : Int) (offset? : Option Int) :
    (ofText s).table.resolve name line offset?
      = ((ofText s).table.declarations.filter
          fun d => d.Visible name ((ofText s).table.stageOf line) line offset?).getLast? :=
  VariableTable.resolve_eq_getLast?_visible
    (VariableTable.sorted_line_after 0 (sorted_instructions s))
    (VariableTable.sorted_scope_after 0 _) name line offset?

/-- What a reference of a document resolves to is visible to it. -/
theorem visible_of_resolve {name : List Char} {line : Int} {offset? : Option Int} {x : Declaration}
    (hx : (ofText s).table.resolve name line offset? = some x) :
    x ∈ (ofText s).table.declarations
      ∧ x.Visible name ((ofText s).table.stageOf line) line offset? := by
  rw [resolve_eq_getLast?] at hx
  obtain ⟨hmem, hvisible⟩ := List.mem_filter.mp (List.mem_of_getLast? hx)
  exact ⟨hmem, of_decide_eq_true hvisible⟩

/-! ## The references on a line -/

section OnLine

variable (he : e ∈ (ofText s).entries) (hi : e.node = .instruction i)

include he hi

/-- A reference is kept with its line and with what it resolves to. -/
theorem of_mem_referencesOn {r : ResolvedReference}
    (hr : r ∈ (ofText s).referencesOn e.line.index) : r.line = e.line.index
      ∧ r.declaration = (ofText s).table.resolve r.name r.line (some r.start) := by
  rw [referencesOn_eq he hi] at hr
  obtain ⟨q, hq, rfl⟩ := List.mem_map.mp hr
  exact ⟨Reference.line_of_mem_search hq, rfl⟩

/-- The references on a line stand one behind the other. -/
theorem sorted_referencesOn :
    ((ofText s).referencesOn e.line.index).Pairwise (fun a b => a.stop ≤ b.start) := by
  rw [referencesOn_eq he hi]
  exact List.pairwise_map.mpr Reference.sorted_find

/-- **The references on a line stand in the arguments**, and none of them is empty. -/
theorem arguments_of_mem_referencesOn {r : ResolvedReference}
    (hr : r ∈ (ofText s).referencesOn e.line.index) :
    i.argumentsStart ≤ r.start ∧ r.start < r.stop ∧ r.stop ≤ i.argumentsEnd := by
  rw [referencesOn_eq he hi] at hr
  obtain ⟨q, hq, rfl⟩ := List.mem_map.mp hr
  exact Reference.span_of_mem_find hq

/-- So they lie in its text. -/
theorem span_of_mem_referencesOn {r : ResolvedReference}
    (hr : r ∈ (ofText s).referencesOn e.line.index) :
    r.start < r.stop ∧ r.stop ≤ e.line.text.length := by
  obtain ⟨-, hlt, hle⟩ := arguments_of_mem_referencesOn he hi hr
  have hend := Command.argumentsEnd_le
    (Instruction.parse_toCommand (parse_of_instruction he hi))
  omega

/-! ## Declarations on the line of a reference -/

/-- **On its own line, a reference sees the declarations of its name in front of the one that it
stands in.** -/
theorem filter_visible_declaredBy (name : List Char) {k offset : Nat}
    (hk : Declaration.StandsIn ((ofText s).table.declaredBy e.line.index) i.argumentsEnd k offset) :
    let t := (ofText s).table
    (t.declaredBy e.line.index).filter
        (fun x => x.Visible name (t.stageOf e.line.index) e.line.index (some offset))
      = ((t.declaredBy e.line.index).take k).filter fun x => x.name = name := by
  intro t
  rw [declaredBy_eq he hi] at hk ⊢
  rw [← Declaration.filter_extent_le hk, List.filter_filter]
  refine List.filter_congr fun x hx => ?_
  obtain ⟨hline, hscope⟩ := Declaration.line_scope_of_mem_ofCommand hx
  simp [Declaration.Visible, hline, hscope, t]

end OnLine

/--
**On its own line a reference sees exactly the declarations in front of the one it stands in.**

Let an instruction of a document declare something. Its first declaration starts where the arguments
do, and every reference on the line starts in the text of exactly one of its declarations.

* Of the declarations on the line, those in front of that one are visible to the reference, if they
  have its name.
* It resolves to the last one of them, or, if there is none, to what is visible from the start of
  the line.
* So it does not resolve to the declaration that it stands in, nor to a later one.
-/
theorem references_own_line (s : List Char) :
    let d : Document := ofText s
    ∀ e ∈ d.entries, ∀ i : Instruction, e.node = .instruction i →
      let line := e.line.index
      let ds := d.table.declaredBy line
      ds ≠ [] → ds.head?.map (·.start) = some i.argumentsStart ∧
        ∀ r ∈ d.referencesOn line,
          (∃! k, Declaration.StandsIn ds i.argumentsEnd k r.start) ∧
          ∀ k, Declaration.StandsIn ds i.argumentsEnd k r.start →
            ds.filter (fun x => x.Visible r.name (d.table.stageOf line) line (some r.start))
              = (ds.take k).filter (fun x => x.name = r.name) ∧
            r.declaration = ((ds.take k).filter fun x => x.name = r.name).getLast?.or
              (d.table.resolve r.name line none) ∧
            ∀ j x, k ≤ j → ds[j]? = some x → r.declaration ≠ some x := by
  intro d e he i hi line ds hne
  have hds : ds = Declaration.ofCommand i.toCommand line (d.table.stageOf line) :=
    declaredBy_eq he hi
  have hwords : AtWord i.arguments :=
    (Command.arguments_ends (Instruction.parse_toCommand (parse_of_instruction he hi))).1
  constructor
  · obtain ⟨x, hx⟩ := Option.isSome_iff_exists.mp (List.isSome_head?.mpr hne)
    rw [hx, Option.map_some, Declaration.start_of_head?_ofCommand hwords (hds ▸ hx)]
  intro r hr
  obtain ⟨hline, hdeclaration⟩ := of_mem_referencesOn he hi hr
  obtain ⟨hstart, hlt, hle⟩ := arguments_of_mem_referencesOn he hi hr
  refine ⟨?_, fun k hk => ?_⟩
  · rw [hds] at hne ⊢
    exact Declaration.existsUnique_standsIn hne hwords hstart (Nat.lt_of_lt_of_le hlt hle)
  have hvisible := filter_visible_declaredBy he hi r.name hk
  refine ⟨hvisible, ?_, ?_⟩
  · rw [hdeclaration, hline, ← hvisible]
    exact VariableTable.resolve_eq_or (VariableTable.sorted_line_after 0 (sorted_instructions s))
      (VariableTable.sorted_scope_after 0 _) r.name line r.start
  · intro j x hkj hx hsome
    rw [hdeclaration, hline] at hsome
    obtain ⟨-, -, -, hfront⟩ := visible_of_resolve hsome
    rw [hds] at hx hk
    have hown := (Declaration.line_scope_of_mem_ofCommand (List.mem_of_getElem? hx)).1
    -- on the line of the reference, what is visible has ended
    obtain ⟨-, offset, ho, hextent⟩ := hfront.resolve_left (by omega)
    obtain rfl := Option.some.inj ho
    have := (Declaration.extent_le_iff hk hx).mp (by omega)
    omega

/-- The second of three declarations uses the first one and itself: it sees the first one, and not
itself. -/
theorem references_own_line_second :
    let d : Document := ofText "ARG a=1 b=$a$b c".toList
    let ds := d.table.declaredBy 0
    ∃ r ∈ d.referencesOn 0, ∃ q ∈ d.referencesOn 0, r.name = ['a'] ∧ r.declaration = ds[0]?
      ∧ q.name = ['b'] ∧ q.declaration ≠ ds[1]? := by
  intro d ds
  let i : Instruction := ⟨⟨"ARG".toList, 0, "a=1 b=$a$b c".toList, 4⟩, none⟩
  let e : Entry := ⟨⟨0, "ARG a=1 b=$a$b c".toList, ⟨0, 0, 16, 0, 0⟩, []⟩, .instruction i⟩
  let a : Declaration := ⟨['a'], some ['1'], 4, 8, 0, 0, .arg⟩
  let b : Declaration := ⟨['b'], some "$a$b".toList, 8, 15, 0, 0, .arg⟩
  have he : e ∈ d.entries := by decide +kernel
  have hb : ds[1]? = some b := by decide +kernel
  have hstop : (ds[2]?.map (·.start)).getD i.argumentsEnd = 15 := by decide +kernel
  have hstands : ∀ offset, 8 ≤ offset → offset < 15 →
      Declaration.StandsIn ds i.argumentsEnd 1 offset :=
    fun offset hstart hlt => ⟨b, hb, hstart, by rwa [hstop]⟩
  obtain ⟨-, hall⟩ := references_own_line "ARG a=1 b=$a$b c".toList e he i rfl (by decide +kernel)
  let r : ResolvedReference := ⟨⟨['a'], 10, 12, 0⟩, some a⟩
  let q : ResolvedReference := ⟨⟨['b'], 12, 14, 0⟩, none⟩
  have hr : r ∈ d.referencesOn 0 := by decide +kernel
  have hq : q ∈ d.referencesOn 0 := by decide +kernel
  obtain ⟨-, hsees, -⟩ := (hall r hr).2 1 (hstands 10 (by decide) (by decide))
  obtain ⟨-, -, hnot⟩ := (hall q hq).2 1 (hstands 12 (by decide) (by decide))
  refine ⟨r, hr, q, hq, rfl, hsees.trans (by decide +kernel), rfl, ?_⟩
  rw [hb]
  exact hnot 1 b (Nat.le_refl 1) hb

end Document

end Dockerfile
