import Dockerfile.Proofs.Document.Escape
import Dockerfile.Proofs.Document.References
import Dockerfile.Proofs.Hover.Priority

/-!
# Every hover is justified

Whatever is shown can be traced back. Documentation is that of a directive at the top or of a
keyword, and the place is on it. A value has been declared by an `ARG` or an `ENV`, and the place is
on the name of that declaration or on a reference that sees it.

A source of documentation may do more than answer: it may read files, or take down what it is asked.
`consult` looks a place up with a source whose answers are actions; with plain answers it is a
hover.

* `Justified` — the reasons to show something at an offset of an entry
* `Document.justified_of_target?` — a target has a reason
* `hover_justified` — what is asked and shown has one
-/

namespace Dockerfile

/-! ## Reasons -/

/-- The document has the declaration, made by the `ARG` or `ENV` on its line. -/
def Document.Declares (d : Document) (x : Declaration) : Prop :=
  x ∈ d.table.declarations ∧ ∃ e ∈ d.entries, ∃ i, e.line.index = x.line
    ∧ e.node = .instruction i ∧ i.known? = some x.declarer.keyword

/-- The reasons to show a target at an offset of an entry. All spans include their ends. -/
inductive Justified (d : Document) (e : Entry) (offset : Nat) : Target → Prop
  /-- The offset is on the key of an `escape` directive, with only blank lines and directives in
  front of it. -/
  | escapeKey {x : Directive} (hnode : e.node = .directive x) (hrecognized : x.recognized = true)
    (hkey : x.keyStart ≤ offset ∧ offset ≤ x.keyEnd)
    (htop : ∀ a ∈ d.entries, a.line.index < e.line.index →
      a.node = .blank ∨ ∃ y, a.node = .directive y) :
    Justified d e offset (.documentation .escape)
  /-- The offset is on the word of the instruction, or of its trigger if it is an `ONBUILD`, and the
  word is the keyword. -/
  | keyword {i : Instruction} {c : Command} {k : Keyword} (hnode : e.node = .instruction i)
    (hcommand : c = i.toCommand ∨ i.known? = some .onbuild ∧ i.trigger = some c)
    (hword : c.wordStart ≤ offset ∧ offset ≤ c.wordEnd) (hknown : c.known? = some k) :
    Justified d e offset (.documentation (.keyword k))
  /-- The offset is on the name in a declaration that the `ARG` on this line makes. -/
  | ownName {x : Declaration} {v : List Char} (hdeclares : d.Declares x) (hvalue : x.value = some v)
    (harg : x.declarer = .arg) (hline : x.line = e.line.index)
    (hname : x.start ≤ offset ∧ offset ≤ x.stop) : Justified d e offset (.value v)
  /-- The offset is on a reference of this line that sees the declaration. -/
  | reference {x : Declaration} {v : List Char} {r : ResolvedReference}
    (hdeclares : d.Declares x) (hvalue : x.value = some v)
    (hreference : r ∈ d.referencesOn e.line.index) (hline : r.line = e.line.index)
    (hspan : r.start ≤ offset ∧ offset ≤ r.stop) (hname : x.name = r.name)
    (hscope : x.scope = 0 ∨ x.scope = d.table.stageOf r.line)
    (hfront : x.line < r.line ∨ x.line = r.line ∧ x.extent ≤ r.start) :
    Justified d e offset (.value v)

/-! ## Declarations -/

namespace Document

variable {s : List Char} {e : Entry} {offset : Nat}

/-- The declarations of a document are made by its instructions. -/
theorem declares_of_mem {x : Declaration} (hx : x ∈ (ofText s).table.declarations) :
    (ofText s).Declares x := by
  obtain ⟨e, he, i, hindex, hnode, hmem⟩ := exists_of_mem_declarations hx
  exact ⟨hx, e, he, i, hindex, hnode, Declaration.known?_of_mem_ofCommand hmem⟩

/-! ## A target has a reason -/

/-- What an instruction shows has a reason. -/
theorem justified_of_instructionTarget? (he : e ∈ (ofText s).entries) {i : Instruction}
    (hi : e.node = .instruction i) {t : Target}
    (ht : (ofText s).instructionTarget? e.line.index i offset = some t) :
    Justified (ofText s) e offset t := by
  have hparse := parse_of_instruction he hi
  unfold instructionTarget? at ht
  split at ht
  next c hc =>
    obtain ⟨k, hk, rfl⟩ := Option.map_eq_some_iff.mp ht
    obtain ⟨hcommand, hword⟩ := (Instruction.commandAt_eq_some_iff hparse).mp hc
    refine .keyword hi ?_ hword hk
    exact hcommand.imp_right fun h => ⟨(Instruction.trigger_eq_some hparse h).1, h⟩
  next hnone =>
    simp only at ht
    split at ht
    next x hx =>
      obtain ⟨v, hv, rfl⟩ := Option.map_eq_some_iff.mp ht
      have hon : x.onName offset = true := by simpa using List.find?_some hx
      have hown := List.mem_of_find?_eq_some hx
      split at hown
      next harg =>
        obtain ⟨hmem, hline⟩ := List.mem_filter.mp hown
        have hline : x.line = e.line.index := Int.ofNat_inj.mp (by simpa using hline)
        rw [declaredBy_eq he hi] at hown
        -- the instruction is an `ARG`, and it has made the declaration
        have hkeyword := Declaration.known?_of_mem_ofCommand hown
        have hdeclarer : x.declarer = .arg := by
          rw [harg] at hkeyword
          cases hd : x.declarer with
          | arg => rfl
          | env => rw [hd] at hkeyword; cases hkeyword
        exact .ownName (declares_of_mem hmem) hv hdeclarer hline
          (Declaration.onName_iff.mp hon)
      next => cases hown
    next =>
      obtain ⟨r, hr, hvalue⟩ := Option.bind_eq_some_iff.mp ht
      obtain ⟨v, hv, rfl⟩ := Option.map_eq_some_iff.mp hvalue
      obtain ⟨x, hx, hv⟩ := Option.bind_eq_some_iff.mp hv
      have hspan : r.contains offset = true := by simpa using List.find?_some hr
      have hmem := List.mem_of_find?_eq_some hr
      obtain ⟨hline, hresolve⟩ := of_mem_referencesOn he hi hmem
      rw [hresolve] at hx
      obtain ⟨hdeclared, hname, hscope, hfront⟩ := visible_of_resolve hx
      refine .reference (declares_of_mem hdeclared) hv hmem hline
        (Reference.contains_iff.mp hspan) hname hscope ?_
      rcases hfront with hlt | ⟨heq, o, ho, hle⟩
      · exact Or.inl (by omega)
      · obtain rfl := Option.some.inj ho
        exact Or.inr ⟨by omega, by omega⟩

/-- **A target has a reason**: the place is located on an entry, and what is to be shown belongs
there. -/
theorem justified_of_target? {p : Position} {t : Target} (ht : (ofText s).target? p = some t) :
    ∃ e offset, (ofText s).locate p = some (e, offset) ∧ Justified (ofText s) e offset t := by
  obtain ⟨⟨e, offset⟩, hloc, ht⟩ := Option.bind_eq_some_iff.mp ht
  refine ⟨e, offset, hloc, ?_⟩
  have he := (locate_eq_some_iff.mp hloc).1
  cases hnode : e.node with
  | blank => simp [hnode] at ht
  | comment => simp [hnode] at ht
  | instruction i =>
    simp only [hnode] at ht
    exact justified_of_instructionTarget? he hnode ht
  | directive x =>
    simp only [hnode, Directive.target?] at ht
    split at ht
    next hkey =>
      obtain rfl := Option.some.inj ht
      obtain ⟨hrecognized, hkey⟩ := (Bool.and_eq_true _ _).mp hkey
      refine .escapeKey hnode hrecognized (Directive.onKey_iff.mp hkey) fun a ha hlt => ?_
      have hnot := not_endsTop_of_directive he hnode ha hlt
      cases ha : a.node with
      | blank => exact Or.inl rfl
      | directive y => exact Or.inr ⟨y, rfl⟩
      | comment => exact absurd (by simp [ha, Node.EndsTop]) hnot
      | instruction j => exact absurd (by simp [ha, Node.EndsTop]) hnot
    next => cases ht

/-! ## Sources that keep a record -/

/-- Looks up a place with a source of documentation whose answers are actions. -/
def consult {m : Type → Type} [Monad m] (d : Document) (ask : Topic → m (Option (List Char)))
    (p : Position) : m (Option (List Char)) :=
  match d.target? p with
  | none => pure none
  | some (.documentation t) => ask t
  | some (.value v) => pure (some v)

/-- With plain answers a place is looked up as by a hover. -/
theorem consult_eq_hover (d : Document) (provider : Provider) (p : Position) :
    Id.run (d.consult provider p) = d.hover provider p := by
  unfold consult hover
  split
  next h => rw [h]; rfl
  next h => rw [h]; rfl
  next h => rw [h]; rfl

end Document

/-- The source, taking down the topics that it is asked about. -/
def Provider.recorded (provider : Provider) (t : Topic) :
    StateM (List Topic) (Option (List Char)) := do
  modify (· ++ [t])
  return provider t

/-! ## Main statement -/

/--
**Every hover is justified.**

A source of documentation is asked once at most. If it is asked, the hover is its answer, and the
place is on the key of an `escape` directive at the top or on a keyword, of an instruction or
triggered by one. If it is not asked and there is a hover, this is the value of a declaration that
an `ARG` or an `ENV` makes, and the place is on its name, if it is an `ARG`, or on a reference that
sees it. Blank lines and comments show nothing.
-/
theorem hover_justified (provider : Provider) (s : List Char) (p : Position) :
    let d := Document.ofText s
    ∃ asked : List Topic,
      (d.consult provider.recorded p).run [] = (hover provider s p, asked) ∧
      asked.length ≤ 1 ∧
      (∀ t ∈ asked, hover provider s p = provider t ∧ ∃ e offset,
        d.locate p = some (e, offset) ∧ Justified d e offset (.documentation t)) ∧
      (asked = [] → ∀ v, hover provider s p = some v → ∃ e offset,
        d.locate p = some (e, offset) ∧ Justified d e offset (.value v)) ∧
      ∀ e offset, d.locate p = some (e, offset) → e.node = .blank ∨ e.node = .comment →
        asked = [] ∧ hover provider s p = none := by
  intro d
  have hnothing : ∀ e offset, d.locate p = some (e, offset) →
      e.node = .blank ∨ e.node = .comment → d.target? p = none := by
    intro e offset hloc hnode
    rcases hnode with hnode | hnode
    · simp [Document.target?, hloc, hnode]
    · simp [Document.target?, hloc, hnode]
  have hhover : hover provider s p = (d.target? p).bind (·.contents provider) := rfl
  rw [hhover]
  unfold Document.consult
  cases ht : d.target? p with
  | none =>
    exact ⟨[], rfl, by simp, by simp, by simp, fun _ _ _ _ => ⟨rfl, rfl⟩⟩
  | some t =>
    obtain ⟨e, offset, hloc, hjustified⟩ := Document.justified_of_target? ht
    have hshown : ∀ e offset, d.locate p = some (e, offset) →
        ¬(e.node = .blank ∨ e.node = .comment) := by
      intro e offset hloc hnode
      rw [hnothing e offset hloc hnode] at ht
      cases ht
    cases t with
    | documentation t =>
      refine ⟨[t], rfl, by simp, ?_, by simp, fun e o hl hn => absurd hn (hshown e o hl)⟩
      intro t' ht'
      obtain rfl := List.mem_singleton.mp ht'
      exact ⟨rfl, e, offset, hloc, hjustified⟩
    | value v =>
      refine ⟨[], rfl, by simp, by simp, ?_, fun e o hl hn => absurd hn (hshown e o hl)⟩
      intro _ v' hv'
      obtain rfl := Option.some.inj hv'
      exact ⟨e, offset, hloc, hjustified⟩

/-- The `ENV` of the stage and the reference under `ONBUILD` that sees it: no source of
documentation knows anything, so the value shown is justified by the reference. -/
theorem hover_justified_under_trigger :
    let s := "ARG v=0\nFROM x\nENV v=1\nONBUILD RUN $v".toList
    let d := Document.ofText s
    hover (fun _ => none) s ⟨3, 13⟩ = some ['1'] ∧ ∃ e offset,
      d.locate ⟨3, 13⟩ = some (e, offset) ∧ Justified d e offset (.value ['1']) := by
  intro s d
  have hvalue : hover (fun _ => none) s ⟨3, 13⟩ = some ['1'] := by decide +kernel
  obtain ⟨asked, -, -, hasked, hshown, -⟩ := hover_justified (fun _ => none) s ⟨3, 13⟩
  have hnone : asked = [] := by
    refine List.eq_nil_iff_forall_not_mem.mpr fun t ht => ?_
    have hanswer := (hasked t ht).1
    rw [hvalue] at hanswer
    cases hanswer
  exact ⟨hvalue, hshown hnone ['1'] hvalue⟩

end Dockerfile
