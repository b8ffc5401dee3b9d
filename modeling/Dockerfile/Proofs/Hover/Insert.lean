import Dockerfile.Proofs.Document.Insert
import Dockerfile.Proofs.Hover.Recut

/-!
# Blank lines and comments are inert

A line that says nothing gives higher numbers to the lines and to the entries behind it, and the
numbers are all that differs. What is shown at a place does not depend on them, so it is only moved
one line down.

* `Document.hover_renumber` — the same spot under other numbers shows the same
* `Inserted.spot_above`, `Inserted.spot_below` — where the spots are
* `hover_insert` — blank lines and comments are inert
-/

namespace Dockerfile

/-! ## Spots under other numbers -/

section Renumber

variable {f : Nat → Nat}

theorem lookup_map {β γ : Type} (hf : Function.Injective f) (g : β → γ) (l : List (Nat × β))
    (n : Nat) : (l.map fun x => (f x.1, g x.2)).lookup (f n) = (l.lookup n).map g := by
  induction l with
  | nil => rfl
  | cons x l ih =>
    have hkey : (f n == f x.1) = (n == x.1) := by
      rw [Bool.eq_iff_iff, beq_iff_eq, beq_iff_eq, hf.eq_iff]
    rw [List.map_cons, List.lookup_cons, List.lookup_cons, hkey, ih]
    split <;> rfl

theorem ResolvedReference.value_renumber (r : ResolvedReference) :
    (r.renumber f).value = r.value := by
  unfold value renumber
  cases r.declaration <;> rfl

namespace Document

variable {d d' : Document} (hf : StrictMono f) (htable : d'.table = d.table.renumber f)
  (hrefs : d'.references
    = d.references.map fun x => (f x.1, x.2.map (ResolvedReference.renumber f)))

include hf hrefs

theorem referencesOn_renumber (line : Nat) :
    d'.referencesOn (f line) = (d.referencesOn line).map (ResolvedReference.renumber f) := by
  rw [referencesOn, hrefs, lookup_map hf.injective, referencesOn]
  cases d.references.lookup line <;> rfl

include htable

theorem instructionTarget?_renumber (line : Nat) (i : Instruction) (offset : Int) :
    d'.instructionTarget? (f line) i offset = d.instructionTarget? line i offset := by
  have hown : (if i.known? = some .arg then d'.table.declaredBy (f line : Nat) else [])
      = (if i.known? = some .arg then d.table.declaredBy line else []).map
        (Declaration.renumber f) := by
    rw [htable, VariableTable.declaredBy_renumber hf]
    split <;> rfl
  unfold instructionTarget?
  simp only [hown, referencesOn_renumber hf hrefs, List.find?_map]
  cases i.commandAt offset with
  | some c => rfl
  | none =>
    -- numbers do not matter for what is at an offset, nor for its value
    have hnames : (fun d : Declaration => d.onName offset) ∘ Declaration.renumber f
        = (·.onName offset) := rfl
    have hspans : (fun r : ResolvedReference => r.contains offset) ∘ ResolvedReference.renumber f
        = (·.contains offset) := rfl
    rw [hnames, hspans]
    cases List.find? (·.onName offset) (if i.known? = some .arg then d.table.declaredBy line
      else []) with
    | some declaration => rfl
    | none =>
      cases (d.referencesOn line).find? (·.contains offset) with
      | none => rfl
      | some r => exact congrArg (Option.map Target.value) r.value_renumber

/-- **The same spot under another number shows the same.** -/
theorem hover_renumber {p p' : Position}
    (hspot : d'.spot p' = (d.spot p).map fun x => (f x.1, x.2)) (provider : Provider) :
    d'.hover provider p' = d.hover provider p := by
  unfold hover
  rw [target?_eq_spot, target?_eq_spot, hspot]
  cases d.spot p with
  | none => rfl
  | some x =>
    obtain ⟨line, node, offset⟩ := x
    cases node with
    | blank | comment | directive => rfl
    | instruction i =>
      exact congrArg (·.bind (·.contents provider))
        (instructionTarget?_renumber hf htable hrefs line i offset)

end Document

end Renumber

/-! ## Spots around the line -/

namespace Inserted

open Document

variable {s s' : List Char} {line k n : Nat} {before after : List Entry} {e : Entry}
  (h : Inserted line k before e after n (ofText s) (ofText s'))

include h

/-- A fragment behind the line is one of the first document moved one line down. -/
theorem exists_of_mem_lower {a : Entry} (ha : a ∈ after.map (Entry.lower n)) {f : Fragment}
    (hf : f ∈ a.line.fragments) : ∃ b ∈ after, b.lower n = a
      ∧ ∃ g ∈ b.line.fragments, g.shift 1 n = f ∧ f.line = g.line + 1 ∧ line ≤ g.line := by
  obtain ⟨b, hb, rfl⟩ := List.mem_map.mp ha
  have hf : f ∈ b.line.fragments.map (Fragment.shift 1 n) := hf
  obtain ⟨g, hg, rfl⟩ := List.mem_map.mp hf
  exact ⟨b, hb, rfl, g, hg, rfl, rfl, h.le_line b hb g hg⟩

/-- **A place above the line has the spot that it had.** -/
theorem spot_above {p : Position} (hp : p.line < line) :
    (ofText s').spot p = ((ofText s).spot p).map fun x => (lowerFrom k x.1, x.2) := by
  refine Option.ext fun x => ?_
  obtain ⟨index, node, offset⟩ := x
  rw [Option.map_eq_some_iff, spot_eq_some_iff, h.entries']
  -- only the entries in front have fragments above the line, and they are in both documents
  constructor
  · rintro ⟨a, ha, rfl, rfl, f, hf, hshows⟩
    have hline := hshows.line_eq
    rcases List.mem_append.mp ha with ha | ha
    · refine ⟨(a.line.index, a.node, offset), spot_eq_some_iff.mpr
        ⟨a, ?_, rfl, rfl, f, hf, hshows⟩, ?_⟩
      · rw [h.entries]
        exact List.mem_append_left _ ha
      · rw [lowerFrom, if_pos (h.index_lt a ha)]
    rcases List.mem_cons.mp ha with rfl | ha
    · have := h.lines f hf
      omega
    · obtain ⟨b, hb, -, g, hg, -, hfl, hle⟩ := h.exists_of_mem_lower ha hf
      omega
  · rintro ⟨⟨i, m, o⟩, hspot, heq⟩
    obtain ⟨rfl, hrest⟩ := Prod.mk.inj heq
    obtain ⟨rfl, rfl⟩ := Prod.mk.inj hrest
    obtain ⟨a, ha, rfl, rfl, f, hf, hshows⟩ := spot_eq_some_iff.mp hspot
    have hline := hshows.line_eq
    rw [h.entries] at ha
    rcases List.mem_append.mp ha with ha | ha
    · refine ⟨a, List.mem_append_left _ ha, ?_, rfl, f, hf, hshows⟩
      rw [lowerFrom, if_pos (h.index_lt a ha)]
    · have := h.le_line a ha f hf
      omega

/-- **A place behind the line has its spot one line further down.** -/
theorem spot_below {p : Position} (hp : line ≤ p.line) :
    (ofText s').spot { p with line := p.line + 1 }
      = ((ofText s).spot p).map fun x => (lowerFrom k x.1, x.2) := by
  have hnumber : ∀ a ∈ after, (a.lower n).line.index = lowerFrom k a.line.index := by
    intro a ha
    rw [lowerFrom, if_neg (Nat.not_lt.mpr (h.le_index a ha))]
    rfl
  refine Option.ext fun x => ?_
  obtain ⟨index, node, offset⟩ := x
  rw [Option.map_eq_some_iff, spot_eq_some_iff, h.entries']
  -- only the entries behind have fragments there, all of them one line further down
  constructor
  · rintro ⟨a, ha, rfl, rfl, f, hf, hshows⟩
    have hline : p.line + 1 = f.line := hshows.line_eq
    rcases List.mem_append.mp ha with ha | ha
    · have := h.line_lt a ha f hf
      omega
    rcases List.mem_cons.mp ha with rfl | ha
    · have := h.lines f hf
      omega
    · obtain ⟨b, hb, rfl, g, hg, rfl, -⟩ := h.exists_of_mem_lower ha hf
      refine ⟨(b.line.index, b.node, offset), spot_eq_some_iff.mpr
        ⟨b, ?_, rfl, rfl, g, hg, Fragment.shows_shift.mp hshows⟩, ?_⟩
      · rw [h.entries]
        exact List.mem_append_right _ hb
      · rw [hnumber b hb]
        rfl
  · rintro ⟨⟨i, m, o⟩, hspot, heq⟩
    obtain ⟨rfl, hrest⟩ := Prod.mk.inj heq
    obtain ⟨rfl, rfl⟩ := Prod.mk.inj hrest
    obtain ⟨a, ha, rfl, rfl, f, hf, hshows⟩ := spot_eq_some_iff.mp hspot
    have hline := hshows.line_eq
    rw [h.entries] at ha
    rcases List.mem_append.mp ha with ha | ha
    · have := h.line_lt a ha f hf
      omega
    · exact ⟨a.lower n, List.mem_append_right _ (List.mem_cons_of_mem _ (List.mem_map_of_mem ha)),
        hnumber a ha, rfl, f.shift 1 n, List.mem_map_of_mem hf, Fragment.shows_shift.mpr hshows⟩

/-- **The line shows nothing.** -/
theorem target?_eq_none {p : Position} (hp : p.line = line) : (ofText s').target? p = none := by
  rw [target?_eq_spot]
  cases hspot : (ofText s').spot p with
  | none => rfl
  | some x =>
    obtain ⟨index, node, offset⟩ := x
    obtain ⟨a, ha, -, rfl, f, hf, hshows⟩ := spot_eq_some_iff.mp hspot
    have hline := hshows.line_eq
    rw [h.entries'] at ha
    rcases List.mem_append.mp ha with ha | ha
    · have := h.line_lt a ha f hf
      omega
    rcases List.mem_cons.mp ha with rfl | ha
    · rcases h.node with hn | hn <;> simp only [hn, Option.bind_some]
    · obtain ⟨b, hb, -, g, hg, -, hfl, hle⟩ := h.exists_of_mem_lower ha hf
      omega

end Inserted

/-! ## Main statement -/

/--
**Blank lines and comments are inert.**

Put a line in behind a text that is empty, or that ends with a line feed and leaves no continuation
open: a blank line, or, if the text has a comment or an instruction, any comment line, whatever it
ends in. Then the declarations and the references stay, under the higher numbers of their lines, and
for every source of documentation

* a place above the line shows what it showed;
* a place on the line shows nothing;
* a place below the line shows what the place one line further up showed.
-/
theorem hover_insert {u content : List Char} (v : List Char) (hu : Document.Complete u)
    (hline : (Document.ofText u).Inert content) :
    let s := u ++ v
    let s' := u ++ (content ++ '\n' :: v)
    let n := (Document.ofText u).completeLines
    let later := lowerFrom (Document.ofText u).completeEntries
    (Document.ofText s').table = (Document.ofText s).table.renumber later ∧
    (Document.ofText s').references = (Document.ofText s).references.map
      (fun x => (later x.1, x.2.map (ResolvedReference.renumber later))) ∧
    ∀ provider (p : Position),
      (p.line < n → hover provider s' p = hover provider s p) ∧
      (p.line = n → hover provider s' p = none) ∧
      (n < p.line → hover provider s' p = hover provider s { p with line := p.line - 1 }) := by
  intro s s' n later
  obtain ⟨before, e, after, moved, h⟩ := exists_inserted v hu hline
  have hmono : StrictMono later := strictMono_lowerFrom _
  refine ⟨h.table, h.references, fun provider p => ⟨fun hp => ?_, fun hp => ?_, fun hp => ?_⟩⟩
  · exact Document.hover_renumber hmono h.table h.references (h.spot_above hp) provider
  · exact congrArg (·.bind (·.contents provider)) (h.target?_eq_none hp)
  · have hspot := h.spot_below (p := { p with line := p.line - 1 }) (Int.le_sub_one_of_lt hp)
    rw [Int.sub_add_cancel] at hspot
    exact Document.hover_renumber hmono h.table h.references hspot provider

/-- A comment that ends in the escape character is put in inside a stage: the reference in the last
line still sees the declaration in front of the comment, one line further down. -/
theorem hover_insert_comment :
    let u := "FROM x\nENV v=1\n".toList
    let content := "# a\\".toList
    let v := "RUN $v".toList
    Document.Complete u ∧ (Document.ofText u).Inert content
      ∧ hover (fun _ => none) (u ++ v) ⟨2, 5⟩ = some ['1']
      ∧ hover (fun _ => none) (u ++ (content ++ '\n' :: v)) ⟨3, 5⟩ = some ['1']
      ∧ hover (fun _ => none) (u ++ (content ++ '\n' :: v)) ⟨2, 5⟩ = none := by
  intro u content v
  have hfresh : ∃ e ∈ (Document.ofText u).entries, e.line.fragments.map Fragment.line = [2]
      ∧ 2 + 1 = (Document.ofText u).lines.length := by decide +kernel
  obtain ⟨e, he, hlines, hlength⟩ := hfresh
  have hu : Document.Complete u := Or.inr ⟨by decide, e, he, 2, hlines, hlength⟩
  let i : Instruction := ⟨⟨"FROM".toList, 0, "x".toList, 5⟩, none⟩
  have hmem : ∃ e ∈ (Document.ofText u).entries, e.node = .instruction i := by decide +kernel
  obtain ⟨a, ha, hnode⟩ := hmem
  have hline : (Document.ofText u).Inert content :=
    Or.inr ⟨by decide, by decide, by decide, a, ha, Or.inr ⟨i, hnode⟩⟩
  have hvalue : hover (fun _ => none) (u ++ v) ⟨2, 5⟩ = some ['1'] := by decide +kernel
  have hn : (Document.ofText u).completeLines = 2 := by decide +kernel
  obtain ⟨-, -, hhover⟩ := hover_insert v hu hline
  refine ⟨hu, hline, hvalue, ?_, ?_⟩
  · exact ((hhover _ ⟨3, 5⟩).2.2 (by rw [hn]; decide)).trans hvalue
  · exact (hhover _ ⟨2, 5⟩).2.1 (by rw [hn]; rfl)

end Dockerfile
