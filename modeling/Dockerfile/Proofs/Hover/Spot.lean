import Dockerfile.Hover
import Dockerfile.Proofs.Document.Locate

/-!
# Spots

What is shown at a place depends on the number and the kind of the entry there and on the offset,
its `spot`, and on what the document keeps for the line of the entry: the variables that it declares
and the references on it. Two documents that have the same spot at two places, and keep the same for
its line, show the same there.

* `spot_eq_some_iff` — the spot of a place is read off the fragment that shows it
* `hover_congr` — the same spot shows the same
-/

namespace Dockerfile

theorem Fragment.Shows.line_eq {f : Fragment} {p : Position} {offset : Nat}
    (h : f.Shows p offset) : p.line = f.line := by
  obtain ⟨column, rfl, -, -⟩ := h
  rfl

namespace Document

/-- What there is at a place: the number and the kind of the entry, and the offset. -/
def spot (d : Document) (p : Position) : Option (Nat × Node × Nat) :=
  (d.locate p).map fun x => (x.1.line.index, x.1.node, x.2)

theorem spot_eq_some_iff {s : List Char} {p : Position} {index : Nat} {node : Node}
    {offset : Nat} : (ofText s).spot p = some (index, node, offset)
      ↔ ∃ e ∈ (ofText s).entries, e.line.index = index ∧ e.node = node
        ∧ ∃ f ∈ e.line.fragments, f.Shows p offset := by
  unfold spot
  rw [Option.map_eq_some_iff]
  constructor
  · rintro ⟨⟨e, o⟩, hloc, heq⟩
    obtain ⟨rfl, hrest⟩ := Prod.mk.inj heq
    obtain ⟨rfl, rfl⟩ := Prod.mk.inj hrest
    obtain ⟨he, hf⟩ := locate_eq_some_iff.mp hloc
    exact ⟨e, he, rfl, rfl, hf⟩
  · rintro ⟨e, he, rfl, rfl, hf⟩
    exact ⟨(e, offset), locate_eq_some_iff.mpr ⟨he, hf⟩, rfl⟩

/-- The target at a place is that at its spot. -/
theorem target?_eq_spot (d : Document) (p : Position) :
    d.target? p = (d.spot p).bind fun x =>
      match x.2.1 with
      | .directive directive => directive.target? x.2.2
      | .instruction i => d.instructionTarget? x.1 i x.2.2
      | .blank => none
      | .comment => none := by
  unfold target? spot
  cases d.locate p <;> rfl

variable {d d' : Document} {p p' : Position}

/-- The same spot shows the same, if what is kept for its line is the same. -/
theorem hover_congr_of_spot (hspot : d'.spot p' = d.spot p)
    (hdeclared : ∀ line i offset, d.spot p = some (line, .instruction i, offset) →
      d'.table.declaredBy line = d.table.declaredBy line)
    (hrefs : ∀ line i offset, d.spot p = some (line, .instruction i, offset) →
      d'.referencesOn line = d.referencesOn line) (provider : Provider) :
    d'.hover provider p' = d.hover provider p := by
  unfold hover
  rw [target?_eq_spot, target?_eq_spot, hspot]
  cases hs : d.spot p with
  | none => rfl
  | some x =>
    obtain ⟨line, node, offset⟩ := x
    cases node with
    | blank | comment | directive => rfl
    | instruction i =>
      have htarget : d'.instructionTarget? line i offset = d.instructionTarget? line i offset := by
        unfold instructionTarget?
        rw [hdeclared line i offset hs, hrefs line i offset hs]
      exact congrArg (·.bind (·.contents provider)) htarget

/-- **The same spot shows the same**, if the variables and the references are the same. -/
theorem hover_congr (htable : d'.table = d.table) (hrefs : d'.references = d.references)
    (hspot : d'.spot p' = d.spot p) (provider : Provider) :
    d'.hover provider p' = d.hover provider p := by
  refine hover_congr_of_spot hspot (fun _ _ _ _ => ?_) (fun _ _ _ _ => ?_) provider
  · rw [htable]
  · rw [referencesOn, referencesOn, hrefs]

end Document

end Dockerfile
