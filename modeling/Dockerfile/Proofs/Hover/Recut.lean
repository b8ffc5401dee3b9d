import Dockerfile.Proofs.Document.Recut
import Dockerfile.Proofs.Hover.Spot

/-!
# A hover does not see the cuts

What is shown at a place depends on its spot, and on the variables and references of the document. A
cut changes neither the numbers nor the logical texts, so it only moves spots to other places.

* `Recut.spot_piece`, `Recut.spot_above`, `Recut.spot_below` — where the spots are after a cut
* `hover_recut` — what is shown is the same at the places that correspond
-/

namespace Dockerfile

/-- The place moved down by `m` lines, if it is below the given line. -/
def Position.shiftBelow (line m : Nat) (p : Position) : Position :=
  if p.line ≤ line then p else { p with line := p.line + m }

/-! ## Spots after a cut -/

theorem Fragment.shows_shift {m n : Nat} {f : Fragment} {p : Position} {offset : Nat} :
    (f.shift m n).Shows { p with line := p.line + m } offset ↔ f.Shows p offset := by
  obtain ⟨line, character⟩ := p
  unfold Shows
  simp only [shift, Position.mk.injEq]
  refine exists_congr fun column => and_congr_left fun _ => and_congr_left fun _ => ?_
  omega

namespace Recut

open Document

variable {s s' : List Char} {line n : Nat} {c : Cut} {before after : List Entry} {e e' : Entry}
  (h : Recut line n c before e e' after (ofText s) (ofText s'))

include h

theorem mem_entries : e ∈ (ofText s).entries := by
  rw [h.entries]
  simp

theorem mem_entries' : e' ∈ (ofText s').entries := by
  rw [h.entries']
  simp

/-- The instructions and their numbers are the same. -/
theorem instructions : (ofText s').entries.filterMap Entry.instruction?
    = (ofText s).entries.filterMap Entry.instruction? := by
  have he : e'.instruction? = e.instruction? := by
    simp only [Entry.instruction?, h.node, h.index]
  rw [h.entries, h.entries', List.filterMap_append, List.filterMap_append, List.filterMap_cons,
    List.filterMap_cons, he, List.filterMap_map]
  rfl

theorem table : (ofText s').table = (ofText s).table :=
  congrArg VariableTable.ofInstructions h.instructions

theorem references : (ofText s').references = (ofText s).references := by
  have hescape : (ofText s').escape = (ofText s).escape := congrArg Header.escape h.header
  rw [references_eq, references_eq, h.instructions, h.table, hescape]

/-- **A place on a piece has the spot of its place in the content.** -/
theorem spot_piece {k : Nat} {p : List Char} (hp : c.pieces[k]? = some p) {j : Nat}
    (hj : j ≤ p.length) :
    (ofText s').spot ⟨(line + c.lineOf k : Nat), j⟩
      = (ofText s).spot ⟨line, (c.columnOf k + j : Nat)⟩ := by
  have hpiece : (ofText s').spot ⟨(line + c.lineOf k : Nat), j⟩
      = some (e.line.index, e.node, c.columnOf k + j) := by
    have hf := h.fragments' k
    rw [hp, Option.map_some] at hf
    obtain ⟨f, hget, heq⟩ := Option.map_eq_some_iff.mp hf
    simp only [Prod.mk.injEq] at heq
    obtain ⟨hl, hend, hstart⟩ := heq
    exact spot_eq_some_iff.mpr ⟨e', h.mem_entries', h.index, h.node, f, List.mem_of_getElem? hget,
      j, by rw [hl], by omega, by rw [hstart]⟩
  have hwhole : (ofText s).spot ⟨line, (c.columnOf k + j : Nat)⟩
      = some (e.line.index, e.node, c.columnOf k + j) := by
    obtain ⟨f, hsingle, heq⟩ := List.map_eq_singleton_iff.mp h.fragments
    simp only [Prod.mk.injEq] at heq
    obtain ⟨hl, hend, hstart⟩ := heq
    have hle := c.columnOf_add_le hp
    exact spot_eq_some_iff.mpr ⟨e, h.mem_entries, rfl, rfl, f, by rw [hsingle]; simp,
      c.columnOf k + j, by rw [hl], by omega, by rw [hstart, Nat.zero_add]⟩
  rw [hpiece, hwhole]

/-- The fragments of the entry that is cut are those of the pieces. -/
theorem exists_piece {f : Fragment} (hf : f ∈ e'.line.fragments) :
    ∃ k p, c.pieces[k]? = some p ∧ f.line = line + c.lineOf k ∧ f.endColumn = p.length := by
  obtain ⟨k, hk⟩ := List.mem_iff_getElem?.mp hf
  have hf := h.fragments' k
  rw [hk, Option.map_some, eq_comm, Option.map_eq_some_iff] at hf
  obtain ⟨p, hp, heq⟩ := hf
  simp only [Prod.mk.injEq] at heq
  exact ⟨k, p, hp, heq.1.symm, heq.2.1.symm⟩

theorem line_of_mem {f : Fragment} (hf : f ∈ e.line.fragments) : f.line = line := by
  obtain ⟨g, hsingle, heq⟩ := List.map_eq_singleton_iff.mp h.fragments
  rw [hsingle, List.mem_singleton] at hf
  rw [hf]
  exact congrArg Prod.fst heq

/-- A fragment below the cut is one of the first document moved down. -/
theorem exists_of_mem_shift {a : Entry} (ha : a ∈ after.map (Entry.shift c.added n)) {f : Fragment}
    (hf : f ∈ a.line.fragments) : ∃ b ∈ after, b.shift c.added n = a
      ∧ ∃ g ∈ b.line.fragments, g.shift c.added n = f ∧ f.line = g.line + c.added
        ∧ line < g.line := by
  obtain ⟨b, hb, rfl⟩ := List.mem_map.mp ha
  have hf : f ∈ b.line.fragments.map (Fragment.shift c.added n) := hf
  obtain ⟨g, hg, rfl⟩ := List.mem_map.mp hf
  exact ⟨b, hb, rfl, g, hg, rfl, rfl, h.lt_line b hb g hg⟩

/-- **A place above the cut has the spot that it had.** -/
theorem spot_above {p : Position} (hp : p.line < line) :
    (ofText s').spot p = (ofText s).spot p := by
  refine Option.ext fun ⟨index, node, offset⟩ => ?_
  rw [spot_eq_some_iff, spot_eq_some_iff, h.entries, h.entries']
  -- only the entries in front have fragments above the line, and they are in both documents
  constructor
  · rintro ⟨a, ha, hindex, hnode, f, hf, hshows⟩
    have hline := hshows.line_eq
    rcases List.mem_append.mp ha with ha | ha
    · exact ⟨a, List.mem_append_left _ ha, hindex, hnode, f, hf, hshows⟩
    rcases List.mem_cons.mp ha with rfl | ha
    · obtain ⟨k, q, -, hfl, -⟩ := h.exists_piece hf
      omega
    · obtain ⟨b, hb, -, g, hg, -, hfl, hlt⟩ := h.exists_of_mem_shift ha hf
      omega
  · rintro ⟨a, ha, hindex, hnode, f, hf, hshows⟩
    have hline := hshows.line_eq
    rcases List.mem_append.mp ha with ha | ha
    · exact ⟨a, List.mem_append_left _ ha, hindex, hnode, f, hf, hshows⟩
    rcases List.mem_cons.mp ha with rfl | ha
    · have := h.line_of_mem hf
      omega
    · have := h.lt_line a ha f hf
      omega

/-- **A place below the cut has its spot as many lines further down.** -/
theorem spot_below {p : Position} (hp : line < p.line) :
    (ofText s').spot { p with line := p.line + c.added } = (ofText s).spot p := by
  refine Option.ext fun ⟨index, node, offset⟩ => ?_
  rw [spot_eq_some_iff, spot_eq_some_iff, h.entries, h.entries']
  -- only the entries behind have fragments below it, all of them as many lines further down
  constructor
  · rintro ⟨a, ha, hindex, hnode, f, hf, hshows⟩
    have hline : p.line + c.added = f.line := hshows.line_eq
    rcases List.mem_append.mp ha with ha | ha
    · have := h.line_lt a ha f hf
      omega
    rcases List.mem_cons.mp ha with rfl | ha
    · obtain ⟨k, q, -, hfl, -⟩ := h.exists_piece hf
      have := c.lineOf_le k
      omega
    · obtain ⟨b, hb, rfl, g, hg, rfl, -⟩ := h.exists_of_mem_shift ha hf
      exact ⟨b, by simp [hb], hindex, hnode, g, hg, Fragment.shows_shift.mp hshows⟩
  · rintro ⟨a, ha, hindex, hnode, f, hf, hshows⟩
    have hline := hshows.line_eq
    rcases List.mem_append.mp ha with ha | ha
    · have := h.line_lt a ha f hf
      omega
    rcases List.mem_cons.mp ha with rfl | ha
    · have := h.line_of_mem hf
      omega
    · refine ⟨a.shift c.added n, ?_, hindex, hnode, f.shift c.added n, List.mem_map_of_mem hf,
        Fragment.shows_shift.mpr hshows⟩
      exact List.mem_append_right _ (List.mem_cons_of_mem _ (List.mem_map_of_mem ha))

/-- **Between the pieces there is nothing**: not on the comment lines, and not behind a piece. -/
theorem spot_eq_none {p : Position} (hlo : line ≤ p.line) (hhi : p.line ≤ line + c.added)
    (hp : ∀ k q (j : Nat), c.pieces[k]? = some q → j ≤ q.length →
      p ≠ ⟨(line + c.lineOf k : Nat), j⟩) : (ofText s').spot p = none := by
  refine Option.eq_none_iff_forall_ne_some.mpr fun ⟨index, node, offset⟩ hspot => ?_
  obtain ⟨a, ha, -, -, f, hf, hshows⟩ := spot_eq_some_iff.mp hspot
  have hline := hshows.line_eq
  rw [h.entries'] at ha
  rcases List.mem_append.mp ha with ha | ha
  · have := h.line_lt a ha f hf
    omega
  rcases List.mem_cons.mp ha with rfl | ha
  · obtain ⟨k, q, hq, hfl, hend⟩ := h.exists_piece hf
    obtain ⟨j, rfl, hj, -⟩ := hshows
    exact hp k q j hq (by omega) (by rw [hfl])
  · obtain ⟨b, hb, -, g, hg, -, hfl, hlt⟩ := h.exists_of_mem_shift ha hf
    omega

/-- The numbers, the texts and the kinds of the entries are the same. -/
theorem map_entries : (ofText s').entries.map (fun e => (e.line.index, e.line.text, e.node))
    = (ofText s).entries.map fun e => (e.line.index, e.line.text, e.node) := by
  rw [h.entries, h.entries', List.map_append, List.map_append, List.map_cons, List.map_cons,
    List.map_map, h.index, h.text, h.node]
  rfl

end Recut

/-! ## Main statement -/

/--
**Hover does not see how an instruction is cut into continued lines.**

Take an instruction on one line that is not continued, and cut the line in any way. Then the logical
lines, the variables and the references stay the same, and

* a place on a piece shows what its place in the line showed;
* a place on another line shows what it showed, as many lines further down as have been added;
* every other place of the new lines shows nothing.
-/
theorem hover_recut {s s' : List Char} {pre post : List RawLine} {ending : LineEnding} {e : Entry}
    {i : Instruction} (c : Cut) (hs : RawLine.ofText s = pre ++ ⟨c.content, ending⟩ :: post)
    (he : e ∈ (Document.ofText s).entries) (hi : e.node = .instruction i)
    (hwhole : e.IsWholeLine pre.length c.content.length)
    (hs' : RawLine.ofText s' = pre ++ c.lines (Document.ofText s).escape ending ++ post) :
    let d := Document.ofText s
    let d' := Document.ofText s'
    d'.entries.map (fun e => (e.line.index, e.line.text, e.node))
      = d.entries.map (fun e => (e.line.index, e.line.text, e.node)) ∧
    d'.table = d.table ∧ d'.references = d.references ∧ d'.escape = d.escape ∧
    ∀ provider,
      (∀ k p (j : Nat), c.pieces[k]? = some p → j ≤ p.length →
        hover provider s' ⟨(pre.length + c.lineOf k : Nat), j⟩
          = hover provider s ⟨pre.length, (c.columnOf k + j : Nat)⟩) ∧
      (∀ p : Position, p.line ≠ pre.length →
        hover provider s' (p.shiftBelow pre.length c.added) = hover provider s p) ∧
      ∀ p : Position, pre.length ≤ p.line → p.line ≤ pre.length + c.added →
        (∀ k q (j : Nat), c.pieces[k]? = some q → j ≤ q.length →
          p ≠ ⟨(pre.length + c.lineOf k : Nat), j⟩) → hover provider s' p = none := by
  intro d d'
  obtain ⟨before, e', after, n, h⟩ := exists_recut c hs he hi hwhole hs'
  refine ⟨h.map_entries, h.table, h.references, congrArg Header.escape h.header,
    fun provider => ⟨?_, ?_, ?_⟩⟩
  · intro k p j hp hj
    exact Document.hover_congr h.table h.references (h.spot_piece hp hj) provider
  · intro p hp
    refine Document.hover_congr h.table h.references ?_ provider
    unfold Position.shiftBelow
    split
    next hle => exact h.spot_above (by omega)
    next hgt => exact h.spot_below (by omega)
  · intro p hlo hhi hp
    show ((Document.ofText s').target? p).bind _ = none
    rw [Document.target?_eq_spot, h.spot_eq_none hlo hhi hp]
    rfl

/-- `RUN a$v` cut inside the keyword, with a comment line behind, and inside the reference: the
reference still shows its value, and the comment line shows nothing. -/
theorem hover_recut_inside_reference :
    let s := "ARG v=12\nRUN a$v".toList
    let s' := "ARG v=12\nRU\\ \n#x\nN a$\\\r\nv".toList
    hover (fun _ => none) s ⟨1, 7⟩ = some ['1', '2']
      ∧ hover (fun _ => none) s' ⟨4, 1⟩ = some ['1', '2']
      ∧ hover (fun _ => none) s' ⟨2, 1⟩ = none := by
  intro s s'
  let c : Cut :=
    ⟨[⟨"RU".toList, [' '], .lf, [⟨"#x".toList, .lf⟩], by decide, by decide, by decide⟩,
      ⟨"N a$".toList, [], .crlf, [], by decide, by decide, by decide⟩], ['v'], by decide⟩
  let i : Instruction := ⟨⟨"RUN".toList, 0, "a$v".toList, 4⟩, none⟩
  let e : Entry := ⟨⟨1, "RUN a$v".toList, ⟨1, 0, 7, 9, 0⟩, []⟩, .instruction i⟩
  have hs : RawLine.ofText s = [⟨"ARG v=12".toList, .lf⟩] ++ ⟨c.content, .none⟩ :: [] := by
    decide +kernel
  have he : e ∈ (Document.ofText s).entries := by decide +kernel
  have hs' : RawLine.ofText s' = [⟨"ARG v=12".toList, .lf⟩]
      ++ c.lines (Document.ofText s).escape .none ++ [] := by
    decide +kernel
  have hvalue : hover (fun _ => none) s ⟨1, 7⟩ = some ['1', '2'] := by decide +kernel
  obtain ⟨-, -, -, -, hhover⟩ := hover_recut c hs he rfl (by decide +kernel) hs'
  obtain ⟨hpiece, -, hnothing⟩ := hhover fun _ => none
  refine ⟨hvalue, (hpiece 2 ['v'] 1 rfl (by decide)).trans hvalue, ?_⟩
  refine hnothing ⟨2, 1⟩ (by decide) (by decide) fun k q j hq hj heq => ?_
  have hline : (2 : Int) = (1 + c.lineOf k : Nat) := congrArg Position.line heq
  match k with
  | 0 | 1 | 2 => exact absurd hline (by decide)
  | k + 3 => cases hq

end Dockerfile
