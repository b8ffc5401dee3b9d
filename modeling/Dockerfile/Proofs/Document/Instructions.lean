import Dockerfile.Proofs.Directive.Header
import Dockerfile.Proofs.Document.Locate
import Dockerfile.Proofs.Line.Resume
import Dockerfile.Proofs.Variable.Table

/-!
# Entries and what is kept about them

What an entry is has been decided from its logical text and from the top of the document at that
place. A document keeps the variables and the references by the numbers of the logical lines, which
are different for different entries, so what is kept for a line is what its instruction gives.

* `exists_reaches` — every entry is classified where a logical line starts
* `parse_of_instruction`, `recognized_of_directive` — what the kind of an entry tells about its text
* `declaredBy_eq`, `referencesOn_eq` — what is kept for the line of an instruction
-/

namespace Dockerfile

/-! ## Deciding what a line is -/

namespace Node

variable {l : LogicalLine} {fed : Option Directive}

theorem fed_of_directive {d : Directive} (h : ofLine l fed = .directive d) : fed = some d := by
  cases fed with
  | some d' =>
    obtain rfl := Node.directive.inj h
    rfl
  | none =>
    simp only [ofLine] at h
    split at h
    · cases h
    · split at h
      · cases h
      · split at h <;> cases h

theorem of_instruction {i : Instruction} (h : ofLine l fed = .instruction i) :
    fed = none ∧ l.isBlank = false ∧ l.isComment = false ∧ Instruction.parse 0 l.text = some i := by
  cases fed with
  | some d => cases h
  | none =>
    simp only [ofLine] at h
    split at h
    · cases h
    next hb =>
      split at h
      · cases h
      next hc =>
        split at h
        next i' hi =>
          obtain rfl := Node.instruction.inj h
          exact ⟨rfl, by simpa using hb, by simpa using hc, hi⟩
        next => cases h

end Node

namespace Entry

/-- An instruction is listed under the number of its entry. -/
theorem of_instruction? {e : Entry} {x : Nat × Instruction} (h : e.instruction? = some x) :
    x.1 = e.line.index ∧ e.node = .instruction x.2 := by
  unfold instruction? at h
  split at h
  next i hi =>
    obtain rfl := Option.some.inj h
    exact ⟨rfl, hi⟩
  next => simp at h

/-- The fragments of entries are on the lines that the entries are read from. -/
theorem exists_line_of_mem {index : Nat} {h : Header} {ls : List PhysicalLine} {a : Entry}
    (ha : a ∈ (foldLines (fun h => h.escape.text) classify index h ls).1) {f : Fragment}
    (hf : f ∈ a.line.fragments) : ∃ l ∈ ls, f.line = l.index := by
  have hblocks : ∃ bs : List Block, ls = bs.flatMap Block.lines
      ∧ (foldLines (fun h => h.escape.text) classify index h ls).1.map Entry.line
        = Block.logicals index bs := foldLines_eq_logicals (fun _ _ => rfl) index h ls
  obtain ⟨bs, hls, hmap⟩ := hblocks
  have hmem : a.line ∈ Block.logicals index bs := hmap ▸ List.mem_map_of_mem ha
  obtain ⟨A, b, B, rfl, hline⟩ := Block.exists_of_mem_logicals hmem
  obtain ⟨q, -, hq, hql, -⟩ := Block.exists_of_mem_fragments (hline ▸ hf)
  exact ⟨q.line, by rw [hls]; exact List.mem_flatMap.mpr ⟨b, by simp, hq⟩, hql⟩

end Entry

/-- Once the top is closed, it stays as it is. -/
theorem Entry.foldLines_snd_of_closed {h : Header} (hc : h.isOpen = false) (index : Nat)
    (ls : List PhysicalLine) :
    (foldLines (fun h => h.escape.text) Entry.classify index h ls).2 = h := by
  fun_induction foldLines (fun h : Header => h.escape.text) Entry.classify index h ls with
  | case1 => rfl
  | case2 index h l rest joined stepped more ih =>
    have hstep : stepped.2 = h := congrArg Prod.snd (Header.feed_of_closed hc _)
    rw [hstep] at ih
    show (foldLines _ _ _ stepped.2 _).2 = h
    rw [hstep]
    exact ih hc

/-! ## The entries of a document -/

namespace Document

variable {s : List Char} {e : Entry}

/-- **Every entry is classified where a logical line starts.** -/
theorem exists_reaches (he : e ∈ (ofText s).entries) :
    ∃ used l rest items h, PhysicalLine.ofText s = used ++ l :: rest
      ∧ Reaches (fun h => h.escape.text) Entry.classify 0 .initial used items h
      ∧ e = (Entry.classify h (.ofPieces items.length (join h.escape.text l rest).1
          (join h.escape.text l rest).2.1)).1 := by
  obtain ⟨used, l, rest, items, h, hsplit, hreach, hitem⟩ := exists_reaches_of_mem he
  exact ⟨used, l, rest, items, h, hsplit, hreach, by rwa [Nat.zero_add] at hitem⟩

/-- A directive of a document is an `escape` directive. -/
theorem recognized_of_directive (he : e ∈ (ofText s).entries) {d : Directive}
    (hd : e.node = .directive d) : d.recognized = true := by
  obtain ⟨used, l, rest, items, h, -, -, rfl⟩ := exists_reaches he
  exact Header.recognized_of_feed (Node.fed_of_directive hd)

/-- A directive of a document is read off its logical text. -/
theorem parse_of_directive (he : e ∈ (ofText s).entries) {d : Directive}
    (hd : e.node = .directive d) : Directive.parse e.line.text = some d := by
  obtain ⟨used, l, rest, items, h, -, -, rfl⟩ := exists_reaches he
  exact Header.parse_of_feed (Node.fed_of_directive hd)

/-- An instruction of a document is read off its logical text. -/
theorem parse_of_instruction (he : e ∈ (ofText s).entries) {i : Instruction}
    (hi : e.node = .instruction i) : Instruction.parse 0 e.line.text = some i := by
  obtain ⟨used, l, rest, items, h, -, -, rfl⟩ := exists_reaches he
  exact (Node.of_instruction hi).2.2.2

/-! ## What is kept by the numbers of the lines -/

theorem mem_instructions {d : Document} (he : e ∈ d.entries) {i : Instruction}
    (hi : e.node = .instruction i) :
    (e.line.index, i) ∈ d.entries.filterMap Entry.instruction? := by
  refine List.mem_filterMap.mpr ⟨e, he, ?_⟩
  simp only [Entry.instruction?, hi]

theorem references_eq (s : List Char) : (ofText s).references
    = ((ofText s).entries.filterMap Entry.instruction?).map fun x =>
      (x.1, (ofText s).table.references (ofText s).escape.text x.1 x.2.toCommand) := rfl

/-- The instructions have increasing numbers. -/
theorem sorted_instructions (s : List Char) :
    (((ofText s).entries.filterMap Entry.instruction?).map Prod.fst).Pairwise (· < ·) := by
  have hentries : (ofText s).entries.Pairwise (fun a b => a.line.index < b.line.index) := by
    rw [List.pairwise_iff_getElem]
    intro i j hi hj hlt
    rw [index_of_getElem? (List.getElem?_eq_getElem hi),
      index_of_getElem? (List.getElem?_eq_getElem hj)]
    exact hlt
  refine List.pairwise_map.mpr (List.Pairwise.filterMap _ ?_ hentries)
  intro a b hlt x hx y hy
  rw [(Entry.of_instruction? hx).1, (Entry.of_instruction? hy).1]
  exact hlt

/-- **What is kept as declared on a line is what its instruction declares.** -/
theorem declaredBy_eq (he : e ∈ (ofText s).entries) {i : Instruction}
    (hi : e.node = .instruction i) :
    (ofText s).table.declaredBy e.line.index
      = Declaration.ofCommand i.toCommand e.line.index ((ofText s).table.stageOf e.line.index) :=
  VariableTable.declaredBy_after 0 (sorted_instructions s) (mem_instructions he hi)

/-- **A declaration of a document is made by the instruction of an entry.** -/
theorem exists_of_mem_declarations {x : Declaration} (hx : x ∈ (ofText s).table.declarations) :
    ∃ e ∈ (ofText s).entries, ∃ i, e.line.index = x.line ∧ e.node = .instruction i
      ∧ x ∈ Declaration.ofCommand i.toCommand x.line x.scope := by
  obtain ⟨i, hi, hmem⟩ := VariableTable.exists_of_mem_after hx
  obtain ⟨e, he, hinstruction⟩ := List.mem_filterMap.mp hi
  obtain ⟨hindex, hnode⟩ := Entry.of_instruction? hinstruction
  exact ⟨e, he, i, hindex.symm, hnode, hmem⟩

/-- **The references kept for a line are those in the arguments of its instruction.** -/
theorem referencesOn_eq (he : e ∈ (ofText s).entries) {i : Instruction}
    (hi : e.node = .instruction i) :
    (ofText s).referencesOn e.line.index
      = (ofText s).table.references (ofText s).escape.text e.line.index i.toCommand := by
  obtain ⟨front, back, hsplit⟩ := List.append_of_mem (mem_instructions he hi)
  have hsorted := sorted_instructions s
  rw [hsplit, List.map_append, List.pairwise_append] at hsorted
  let kept := fun x : Nat × Instruction =>
    (x.1, (ofText s).table.references (ofText s).escape.text x.1 x.2.toCommand)
  have hrefs : (ofText s).references
      = front.map kept ++ kept (e.line.index, i) :: back.map kept := by
    rw [references_eq, hsplit, List.map_append, List.map_cons]
  have hlookup : (ofText s).references.lookup e.line.index = some (kept (e.line.index, i)).2 := by
    refine List.lookup_eq_some_iff.mpr ⟨_, _, hrefs, fun p hp => ?_⟩
    obtain ⟨q, hq, rfl⟩ := List.mem_map.mp hp
    have hlt := hsorted.2.2 q.1 (List.mem_map_of_mem hq) e.line.index (by simp)
    simpa [kept] using Nat.ne_of_gt hlt
  rw [referencesOn, hlookup]
  rfl

/-- References are only kept for the lines of instructions. -/
theorem instruction_of_mem_referencesOn (he : e ∈ (ofText s).entries) {r : ResolvedReference}
    (hr : r ∈ (ofText s).referencesOn e.line.index) : ∃ i, e.node = .instruction i := by
  rw [referencesOn] at hr
  cases hlookup : (ofText s).references.lookup e.line.index with
  | none =>
    rw [hlookup] at hr
    cases hr
  | some kept =>
    obtain ⟨front, back, hrefs, -⟩ := List.lookup_eq_some_iff.mp hlookup
    have hmem : (e.line.index, kept) ∈ (ofText s).references := by
      rw [hrefs]
      simp
    rw [references_eq] at hmem
    obtain ⟨x, hx, heq⟩ := List.mem_map.mp hmem
    obtain ⟨e', he', hinstruction⟩ := List.mem_filterMap.mp hx
    obtain ⟨hindex, hnode⟩ := Entry.of_instruction? hinstruction
    obtain rfl := entry_ext he' he (hindex.symm.trans (Prod.mk.inj heq).1)
    exact ⟨x.2, hnode⟩

end Document

end Dockerfile
