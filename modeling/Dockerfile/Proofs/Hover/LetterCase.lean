import Dockerfile.Proofs.Document.LetterCase
import Dockerfile.Proofs.Hover.Spot

/-!
# The case of keywords does not count

Keywords and the keys of directives may be written in any case. A change of their case changes
neither what is where nor what is kept for a line, and what is shown at a spot asks for a keyword by
its capitals.

* `spot_lowerCase`, `target?_small` — spots and targets do not see case
* `hover_same_but_case` — the case of keywords and keys changes nothing
-/

namespace Dockerfile

namespace Document

/-! ## Spots and targets -/

theorem spot_lowerCase (s : List Char) (p : Position) : (ofText (lowerCase s)).spot p
    = ((ofText s).spot p).map fun x => (x.1, x.2.1.small, x.2.2) := by
  refine Option.ext fun x => ?_
  obtain ⟨index, node, offset⟩ := x
  rw [spot_eq_some_iff, entries_lowerCase, Option.map_eq_some_iff]
  constructor
  · rintro ⟨a, ha, rfl, rfl, hshows⟩
    obtain ⟨e, he, rfl⟩ := List.mem_map.mp ha
    exact ⟨(e.line.index, e.node, offset), spot_eq_some_iff.mpr ⟨e, he, rfl, rfl, hshows⟩, rfl⟩
  · rintro ⟨⟨index', node', offset'⟩, hspot, heq⟩
    obtain ⟨e, he, rfl, rfl, hshows⟩ := spot_eq_some_iff.mp hspot
    obtain ⟨rfl, hrest⟩ := Prod.mk.inj heq
    obtain ⟨rfl, rfl⟩ := Prod.mk.inj hrest
    exact ⟨e.small, List.mem_map_of_mem he, rfl, rfl, hshows⟩

/-- The target at a spot. -/
def targetAt (d : Document) (x : Nat × Node × Nat) : Option Target :=
  match x.2.1 with
  | .directive directive => directive.target? x.2.2
  | .instruction i => d.instructionTarget? x.1 i x.2.2
  | .blank => none
  | .comment => none

theorem instructionTarget?_small (d : Document) (line : Nat) (i : Instruction) (offset : Int) :
    d.instructionTarget? line i.small offset = d.instructionTarget? line i offset := by
  rw [instructionTarget?, instructionTarget?, i.commandAt_small, i.known?_small]
  cases i.commandAt offset with
  | none => rfl
  | some c =>
    rw [Option.map_some]
    simp only [c.known?_small]

/-- **A target does not see case.** -/
theorem targetAt_small (d : Document) (x : Nat × Node × Nat) :
    d.targetAt (x.1, x.2.1.small, x.2.2) = d.targetAt x := by
  obtain ⟨index, node, offset⟩ := x
  cases node with
  | blank | comment => rfl
  | directive directive =>
    simp only [targetAt, Node.small, Directive.target?, directive.recognized_small,
      directive.onKey_small]
  | instruction i => exact d.instructionTarget?_small index i offset

/-- Of two texts that are the same in lower case, the same place shows the same, if the variables
and references of their documents are the same. -/
theorem hover_eq_of_lowerCase {s s' : List Char} (hcase : lowerCase s' = lowerCase s)
    (htable : (ofText s').table = (ofText s).table)
    (hrefs : (ofText s').references = (ofText s).references) (provider : Provider)
    (p : Position) : (ofText s').hover provider p = (ofText s).hover provider p := by
  have htarget : (ofText s').targetAt = (ofText s).targetAt := by
    funext x
    unfold targetAt instructionTarget? referencesOn
    rw [htable, hrefs]
  have hspot : ∀ t (d : Document), ((ofText t).spot p).bind d.targetAt
      = ((ofText (lowerCase t)).spot p).bind d.targetAt := by
    intro t d
    rw [spot_lowerCase, Option.bind_map]
    congr 1
    funext x
    exact (d.targetAt_small x).symm
  have htargets : (ofText s').target? p = (ofText s).target? p :=
    calc (ofText s').target? p
        = ((ofText s').spot p).bind (ofText s').targetAt := target?_eq_spot _ p
      _ = ((ofText (lowerCase s)).spot p).bind (ofText s).targetAt := by
        rw [hspot, hcase, htarget]
      _ = (ofText s).target? p := by
        rw [← hspot]
        exact (target?_eq_spot _ p).symm
  rw [hover, hover, htargets]

/-! ## Variables and references -/

section SameElsewhere

variable {s s' : List Char} (hcase : lowerCase s' = lowerCase s)
  (hrest : ∀ n, ¬(ofText s).Caseless n → s'[n]? = s[n]?)

include hcase

/-- The entries are the same in lower case, one by one. -/
theorem entries_sameInLowerCase : List.Forall₂
    (fun e e' => e ∈ (ofText s).entries ∧ e' ∈ (ofText s').entries ∧ e'.small = e.small)
    (ofText s).entries (ofText s').entries := by
  have hsmall := map_small_entries hcase
  have hlength : (ofText s').entries.length = (ofText s).entries.length := by
    have := congrArg List.length hsmall
    rwa [List.length_map, List.length_map] at this
  refine List.forall₂_iff_get.mpr ⟨hlength.symm, fun j h h' => ?_⟩
  refine ⟨List.get_mem _ _, List.get_mem _ _, ?_⟩
  have hget := congrArg (fun es : List Entry => es[j]?) hsmall
  simpa [h, h'] using hget

include hrest

/-- The instructions are the same but for case, line by line. -/
theorem instructions_sameButCase :
    List.Forall₂ (fun x x' => x'.1 = x.1 ∧ x.2.SameButCase x'.2)
      ((ofText s).entries.filterMap Entry.instruction?)
      ((ofText s').entries.filterMap Entry.instruction?) := by
  refine List.rel_filterMap ?_ (entries_sameInLowerCase hcase)
  rintro e e' ⟨he, he', hsmall⟩
  have hindex : e'.small.line.index = e.small.line.index := by
    rw [hsmall]
  have hnode : e'.node.small = e.node.small := congrArg Entry.node hsmall
  unfold Entry.instruction?
  cases hn : e.node with
  | instruction i =>
    cases hn' : e'.node with
    | instruction i' =>
      exact .some ⟨hindex, sameButCase_of_entries hrest he he' hsmall hn hn'⟩
    | blank | comment | directive =>
      rw [hn, hn'] at hnode
      cases hnode
  | blank | comment | directive =>
    cases hn' : e'.node with
    | instruction i' =>
      rw [hn, hn'] at hnode
      cases hnode
    | blank | comment | directive => exact .none

theorem table_eq_of_lowerCase : (ofText s').table = (ofText s).table :=
  VariableTable.after_congr (instructions_sameButCase hcase hrest) 0

theorem references_eq_of_lowerCase : (ofText s').references = (ofText s).references := by
  rw [references_eq, references_eq, table_eq_of_lowerCase hcase hrest,
    escape_eq_of_lowerCase hcase]
  exact VariableTable.references_congr _ _ (instructions_sameButCase hcase hrest)

end SameElsewhere

end Document

/-! ## Main statement -/

/--
**The case of keywords and of directive keys does not count.**

Let two texts differ only in the case of ASCII letters that belong to keywords, of instructions or
of the instructions that they trigger, or to the keys of directives. Then their logical lines are of
the same kinds, the same escape character is in force, the variables, the stages and the references
are the same, and every place shows the same.
-/
theorem hover_same_but_case {s s' : List Char} (hcase : lowerCase s' = lowerCase s)
    (hrest : ∀ n, ¬(Document.ofText s).Caseless n → s'[n]? = s[n]?) :
    let d := Document.ofText s
    let d' := Document.ofText s'
    d'.entries.map (fun e => e.node.kind) = d.entries.map (fun e => e.node.kind)
      ∧ d'.escape = d.escape ∧ d'.table.declarations = d.table.declarations
      ∧ d'.table.stages = d.table.stages ∧ d'.references = d.references
      ∧ ∀ provider p, hover provider s' p = hover provider s p := by
  intro d d'
  have htable : d'.table = d.table := Document.table_eq_of_lowerCase hcase hrest
  have hrefs : d'.references = d.references := Document.references_eq_of_lowerCase hcase hrest
  refine ⟨?_, Document.escape_eq_of_lowerCase hcase, congrArg _ htable, congrArg _ htable, hrefs,
    fun provider p => Document.hover_eq_of_lowerCase hcase htable hrefs provider p⟩
  have hkind : ∀ es : List Entry, (es.map Entry.small).map (fun e => e.node.kind)
      = es.map fun e => e.node.kind := by
    intro es
    rw [List.map_map]
    exact List.map_congr_left fun e _ => e.node.kind_small
  rw [← hkind, Document.map_small_entries hcase, hkind]

/-- The case of the directive's key and of all keywords is changed, also of the one that `ONBUILD`
triggers and a continuation cuts: the escape character still is the backtick, and the keyword and
the reference behind it show what they showed. -/
theorem hover_same_but_case_triggered :
    let s := "#escape=`\nARG v=12\nFROM a\nENV v=34\nONBUILD R`\nUN $v".toList
    let s' := "#esCAPe=`\narg v=12\nfrom a\nEnv v=34\nOnBuild r`\nUn $v".toList
    let provider : Provider := fun t => some t.name
    lowerCase s' = lowerCase s ∧ (∀ n, ¬(Document.ofText s).Caseless n → s'[n]? = s[n]?)
      ∧ s' ≠ s ∧ (Document.ofText s').escape = .backtick
      ∧ hover provider s' ⟨4, 9⟩ = some "RUN".toList
      ∧ hover provider s' ⟨5, 4⟩ = some "34".toList := by
  intro s s' provider
  have hcase : lowerCase s' = lowerCase s := by decide +kernel
  have hrest : ∀ n, ¬(Document.ofText s).Caseless n → s'[n]? = s[n]? := by
    intro n hn
    by_cases hlt : n < s.length
    · have hall : ∀ n < s.length, (Document.ofText s).Caseless n ∨ s'[n]? = s[n]? := by
        decide +kernel
      exact (hall n hlt).resolve_left hn
    · have hlength : s'.length = s.length := by decide +kernel
      rw [List.getElem?_eq_none (by omega), List.getElem?_eq_none (by omega)]
  obtain ⟨-, hescape, -, -, -, hsame⟩ := hover_same_but_case hcase hrest
  refine ⟨hcase, hrest, by decide +kernel, hescape.trans (by decide +kernel),
    (hsame provider ⟨4, 9⟩).trans (by decide +kernel),
    (hsame provider ⟨5, 4⟩).trans (by decide +kernel)⟩

end Dockerfile
