import Dockerfile.Proofs.Document.Append
import Dockerfile.Proofs.Hover.Spot

/-!
# A hover looks only backwards

What is shown at a place depends on the text up to the end of its logical line. If more text is put
behind a text that ends with a line feed, and no continuation is open there, then every place in
front shows what it has shown before, whatever the new text declares, defines or chooses.

* `Document.spot_eq_some_iff_of_reaches` — the spots in front are on the entries in front
* `hover_append` — more text behind changes nothing in front
-/

namespace Dockerfile

namespace Document

/-- A place on the lines in front has its spot on an entry in front. -/
theorem spot_eq_some_iff_of_reaches {s : List Char} {used rest : List PhysicalLine}
    {items : List Entry} {h : Header} (hs : PhysicalLine.ofText s = used ++ rest)
    (hr : Reaches (fun h => h.escape.text) Entry.classify 0 .initial used items h) {p : Position}
    (hp : p.line < used.length) {index : Nat} {node : Node} {offset : Nat} :
    (ofText s).spot p = some (index, node, offset)
      ↔ ∃ e ∈ items, e.line.index = index ∧ e.node = node
        ∧ ∃ f ∈ e.line.fragments, f.Shows p offset := by
  obtain ⟨later, hentries, hlater⟩ := exists_later hs hr
  rw [spot_eq_some_iff, hentries]
  constructor
  · rintro ⟨e, he, hindex, hnode, f, hf, hshows⟩
    rcases List.mem_append.mp he with he | he
    · exact ⟨e, he, hindex, hnode, f, hf, hshows⟩
    · -- the fragments of the others are on lines further down
      have hline := hshows.line_eq
      have := (hlater e he).2 f hf
      omega
  · rintro ⟨e, he, hindex, hnode, f, hf, hshows⟩
    exact ⟨e, List.mem_append_left _ he, hindex, hnode, f, hf, hshows⟩

end Document

/-- Two texts that are the same up to a place where a logical line starts show the same in front of
it. -/
theorem hover_eq_of_reaches {s s' : List Char} {used rest rest' : List PhysicalLine}
    {items : List Entry} {h : Header} (hs : PhysicalLine.ofText s = used ++ rest)
    (hs' : PhysicalLine.ofText s' = used ++ rest')
    (hr : Reaches (fun h => h.escape.text) Entry.classify 0 .initial used items h) {p : Position}
    (hp : p.line < used.length) (provider : Provider) :
    hover provider s' p = hover provider s p := by
  have hspot : (Document.ofText s').spot p = (Document.ofText s).spot p := by
    refine Option.ext fun ⟨index, node, offset⟩ => ?_
    rw [Document.spot_eq_some_iff_of_reaches hs hr hp,
      Document.spot_eq_some_iff_of_reaches hs' hr hp]
  have hlt : ∀ {line node offset}, (Document.ofText s).spot p = some (line, node, offset) →
      line < items.length := by
    intro line node offset hx
    obtain ⟨e, he, rfl, -⟩ := (Document.spot_eq_some_iff_of_reaches hs hr hp).mp hx
    exact (Document.index_lt_of_mem hs hr he).1
  refine Document.hover_congr_of_spot hspot (fun line i offset hx => ?_)
    (fun line i offset hx => ?_) provider
  · rw [Document.declaredBy_of_reaches hs' hr (hlt hx),
      Document.declaredBy_of_reaches hs hr (hlt hx)]
  · rw [Document.referencesOn_of_reaches hs' hr (hlt hx),
      Document.referencesOn_of_reaches hs hr (hlt hx)]

/--
**A hover looks only backwards.**

Take a text that ends with a line feed and leaves no continuation open, and put any text behind it.
Then all entries but the blank one of the last line are the first entries of the longer text, with
the same stages, declarations and references, which see the same; and every place above the last
line shows the same.
-/
theorem hover_append {t : List Char} (hfeed : t.getLast? = some '\n')
    (hfresh : (Document.ofText t).EndsFresh) (s : List Char) :
    let d := Document.ofText t
    let d' := Document.ofText (t ++ s)
    d.entries.dropLast <+: d'.entries ∧
    (∀ e ∈ d.entries.dropLast,
      d'.table.stageOf e.line.index = d.table.stageOf e.line.index
        ∧ d'.table.declaredBy e.line.index = d.table.declaredBy e.line.index
        ∧ d'.referencesOn e.line.index = d.referencesOn e.line.index
        ∧ ∀ name offset?, d'.table.resolve name e.line.index offset?
          = d.table.resolve name e.line.index offset?) ∧
    ∀ provider (p : Position), p.line + 1 < d.lines.length →
      hover provider (t ++ s) p = hover provider t p := by
  intro d d'
  obtain ⟨used, l, hcontent, hending, ht, hmore⟩ := PhysicalLine.exists_front hfeed
  obtain ⟨rest, hts⟩ := hmore s
  obtain ⟨items, h, hr⟩ := hfresh.exists_reaches ht
  have hitems : d.entries.dropLast = items := Document.dropLast_entries ht hr hcontent hending
  refine ⟨?_, ?_, ?_⟩
  · obtain ⟨later, hentries, -⟩ := Document.exists_later hts hr
    rw [hitems]
    exact ⟨later, hentries.symm⟩
  · intro e he
    have hlt := (Document.index_lt_of_mem ht hr (hitems ▸ he)).1
    refine ⟨?_, ?_, ?_, fun name offset? => ?_⟩
    · rw [Document.stageOf_of_reaches hts hr hlt, Document.stageOf_of_reaches ht hr hlt]
    · rw [Document.declaredBy_of_reaches hts hr hlt, Document.declaredBy_of_reaches ht hr hlt]
    · rw [Document.referencesOn_of_reaches hts hr hlt, Document.referencesOn_of_reaches ht hr hlt]
    · rw [Document.resolve_of_reaches hts hr hlt, Document.resolve_of_reaches ht hr hlt]
  · intro provider p hp
    have hlength : d.lines.length = used.length + 1 := by
      show (PhysicalLine.ofText t).length = _
      rw [ht, List.length_append, List.length_singleton]
    exact hover_eq_of_reaches ht hts hr (by omega) provider

/-- The reference in the second line still shows the value in front of it when a directive, a stage
and another declaration of the name follow. -/
theorem hover_append_redeclared :
    let t := "ARG v=1\nRUN $v\n".toList
    let s := "#escape=`\nFROM x\nARG v=2\nRUN $v".toList
    t.getLast? = some '\n' ∧ (Document.ofText t).EndsFresh
      ∧ hover (fun _ => none) (t ++ s) ⟨1, 5⟩ = some ['1']
      ∧ hover (fun _ => none) (t ++ s) ⟨5, 5⟩ = some ['2'] := by
  intro t s
  have hfeed : t.getLast? = some '\n' := by decide
  have hfresh : (Document.ofText t).EndsFresh := by
    have hlast : ∃ e ∈ (Document.ofText t).entries, e.line.fragments.map Fragment.line = [2]
        ∧ 2 + 1 = (Document.ofText t).lines.length := by decide +kernel
    obtain ⟨e, he, hlines, hlength⟩ := hlast
    exact ⟨e, he, 2, hlines, hlength⟩
  have hvalue : hover (fun _ => none) t ⟨1, 5⟩ = some ['1'] := by decide +kernel
  obtain ⟨-, -, hhover⟩ := hover_append hfeed hfresh s
  refine ⟨hfeed, hfresh, ?_, by decide +kernel⟩
  exact (hhover _ ⟨1, 5⟩ (by decide +kernel)).trans hvalue

end Dockerfile
