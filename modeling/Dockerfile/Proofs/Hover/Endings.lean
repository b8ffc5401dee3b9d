import Dockerfile.Proofs.Document.Instructions
import Dockerfile.Proofs.Hover.Spot
import Dockerfile.Proofs.Line.Endings

/-!
# A hover does not see the endings of lines

Two texts that are cut into the same contents of lines have the same document, but for the endings
of the lines and the offsets of the fragments in the text. Nothing that is shown depends on either.

* `Document.map_plain_entries`, `Document.header_congr` — the entries and the top are the same
* `Document.spot_congr` — so every place has the same spot
* `hover_same_contents` — and shows the same
-/

namespace Dockerfile

namespace Entry

/-- The entry on fragments without their offsets. -/
def plain (e : Entry) : Entry := { e with line := e.line.relabel .plain }

theorem classify_plain (h : Header) (l : LogicalLine) :
    classify h (l.relabel .plain) = ((classify h l).1.plain, (classify h l).2) := rfl

theorem ofLines_plain (ls : List PhysicalLine) :
    ofLines (ls.map PhysicalLine.plain) = ((ofLines ls).1.map plain, (ofLines ls).2) :=
  foldLines_relabel (r := .plain) classify_plain 0 .initial ls

theorem fragments_plain (e : Entry) :
    e.plain.line.fragments = e.line.fragments.map Fragment.plain := rfl

/-- A line map does not depend on the offsets. -/
theorem lineMap_plain (count : Nat) (es : List Entry) :
    lineMap count ((es.map plain).map (·.line)) = lineMap count (es.map (·.line)) := by
  induction es with
  | nil => rfl
  | cons e es ih =>
    cases es with
    | nil => rfl
    | cons next more =>
      simp only [List.map_cons, lineMap] at ih ⊢
      rw [ih]
      rfl

end Entry

theorem Fragment.shows_plain {f : Fragment} {p : Position} {offset : Nat} :
    f.plain.Shows p offset ↔ f.Shows p offset := Iff.rfl

/-! ## Two documents -/

namespace Document

variable {s s' : List Char}

section SameContents

variable (h : (RawLine.ofText s').map RawLine.content = (RawLine.ofText s).map RawLine.content)

include h

theorem ofLines_congr :
    (Entry.ofLines (PhysicalLine.ofText s')).1.map Entry.plain
        = (Entry.ofLines (PhysicalLine.ofText s)).1.map Entry.plain
      ∧ (Entry.ofLines (PhysicalLine.ofText s')).2 = (Entry.ofLines (PhysicalLine.ofText s)).2 := by
  have hplain := congrArg Entry.ofLines (PhysicalLine.map_plain_ofText h)
  rw [Entry.ofLines_plain, Entry.ofLines_plain] at hplain
  exact Prod.mk.inj hplain

theorem map_plain_entries :
    (ofText s').entries.map Entry.plain = (ofText s).entries.map Entry.plain :=
  (ofLines_congr h).1

theorem header_congr : (ofText s').header = (ofText s).header := (ofLines_congr h).2

theorem lineMap_congr : (ofText s').lineMap = (ofText s).lineMap := by
  have hlength : (ofText s').lines.length = (ofText s).lines.length := by
    have := congrArg List.length (PhysicalLine.map_plain_ofText h)
    rwa [List.length_map, List.length_map] at this
  show Dockerfile.lineMap (ofText s').lines.length ((ofText s').entries.map (·.line))
    = Dockerfile.lineMap (ofText s).lines.length ((ofText s).entries.map (·.line))
  rw [hlength, ← Entry.lineMap_plain, map_plain_entries h, Entry.lineMap_plain]

theorem instructions_congr : (ofText s').entries.filterMap Entry.instruction?
    = (ofText s).entries.filterMap Entry.instruction? := by
  have hplain : ∀ es : List Entry,
      (es.map Entry.plain).filterMap Entry.instruction? = es.filterMap Entry.instruction? := by
    intro es
    rw [List.filterMap_map]
    rfl
  rw [← hplain, map_plain_entries h, hplain]

theorem table_congr : (ofText s').table = (ofText s).table :=
  congrArg VariableTable.ofInstructions (instructions_congr h)

theorem references_congr : (ofText s').references = (ofText s).references := by
  have hescape : (ofText s').escape = (ofText s).escape := congrArg Header.escape (header_congr h)
  rw [references_eq, references_eq, instructions_congr h, table_congr h, hescape]

/-- What is at a place of one text is at that place of the other. -/
theorem spot_of_spot {p : Position} {x : Nat × Node × Nat} (hx : (ofText s').spot p = some x) :
    (ofText s).spot p = some x := by
  obtain ⟨index, node, offset⟩ := x
  obtain ⟨e', he', rfl, rfl, f', hf', hshows⟩ := spot_eq_some_iff.mp hx
  have hmem : e'.plain ∈ (ofText s).entries.map Entry.plain :=
    map_plain_entries h ▸ List.mem_map_of_mem he'
  obtain ⟨e, he, heq⟩ := List.mem_map.mp hmem
  have hfragment : f'.plain ∈ e.line.fragments.map Fragment.plain := by
    rw [← Entry.fragments_plain, heq, Entry.fragments_plain]
    exact List.mem_map_of_mem hf'
  obtain ⟨f, hf, hff⟩ := List.mem_map.mp hfragment
  refine spot_eq_some_iff.mpr ⟨e, he, ?_, ?_, f, hf, ?_⟩
  · show e.plain.line.index = e'.plain.line.index
    rw [heq]
  · show e.plain.node = e'.plain.node
    rw [heq]
  · rw [← Fragment.shows_plain, hff, Fragment.shows_plain]
    exact hshows

end SameContents

/-- **Every place has the same spot.** -/
theorem spot_congr
    (h : (RawLine.ofText s').map RawLine.content = (RawLine.ofText s).map RawLine.content)
    (p : Position) : (ofText s').spot p = (ofText s).spot p :=
  Option.ext fun _ => ⟨spot_of_spot h, spot_of_spot h.symm⟩

end Document

/-! ## Main statement -/

/--
**The endings of lines do not matter.**

If two texts are cut into the same contents of lines, their documents have the same logical lines on
the same columns, of the same kinds, the same line map, the same directives and escape character,
the same variables and references, and every place, be it in the text or not, shows the same.
-/
theorem hover_same_contents {s s' : List Char}
    (h : (RawLine.ofText s').map RawLine.content = (RawLine.ofText s).map RawLine.content) :
    let d := Document.ofText s
    let d' := Document.ofText s'
    let layout := fun e : Entry => (e.line.index, e.line.text, e.node,
      e.line.fragments.map fun f => (f.line, f.startColumn, f.endColumn, f.logicalStart))
    d'.entries.map layout = d.entries.map layout ∧ d'.lineMap = d.lineMap ∧
    d'.header = d.header ∧ d'.escape = d.escape ∧ d'.table = d.table ∧
    d'.references = d.references ∧ ∀ provider p, hover provider s' p = hover provider s p := by
  intro d d' layout
  have hlayout : ∀ es : List Entry, (es.map Entry.plain).map layout = es.map layout := by
    intro es
    rw [List.map_map]
    refine List.map_congr_left fun e _ => ?_
    simp only [Function.comp_apply, layout, Entry.fragments_plain, List.map_map]
    rfl
  refine ⟨?_, Document.lineMap_congr h, Document.header_congr h,
    congrArg Header.escape (Document.header_congr h), Document.table_congr h,
    Document.references_congr h, fun provider p => ?_⟩
  · rw [← hlayout, Document.map_plain_entries h, hlayout]
  · exact Document.hover_congr (Document.table_congr h) (Document.references_congr h)
      (Document.spot_congr h p) provider

/-- The second text has a carriage return, both characters and again a carriage return for the line
feeds of the first one. The continued `ARG` has its value in both, at the same places. -/
theorem hover_same_contents_mixed :
    let s := "ARG v=1\\\n#c\n2\nRUN $v".toList
    let s' := "ARG v=1\\\r#c\r\n2\rRUN $v".toList
    (RawLine.ofText s').map RawLine.content = (RawLine.ofText s).map RawLine.content
      ∧ hover (fun _ => none) s ⟨3, 5⟩ = some ['1', '2']
      ∧ hover (fun _ => none) s' ⟨3, 5⟩ = some ['1', '2'] := by
  intro s s'
  have hcontents : (RawLine.ofText s').map RawLine.content
      = (RawLine.ofText s).map RawLine.content := by decide
  have hvalue : hover (fun _ => none) s ⟨3, 5⟩ = some ['1', '2'] := by decide +kernel
  obtain ⟨-, -, -, -, -, -, hhover⟩ := hover_same_contents hcontents
  exact ⟨hcontents, hvalue, (hhover _ _).trans hvalue⟩

end Dockerfile
