import Dockerfile.Proofs.Document.Table
import Dockerfile.Proofs.Hover.Reference
import Dockerfile.Proofs.Syntax.Grammars

/-!
# Every place of a token

Keywords, keys of directives and the names that `ARG` declares are told by their spans in a logical
text, ends included. No two of these spans on a line touch. So a token shows what it is to show at
every place that is located on its span, however continuations cut it: also at the end of a piece
and at the start of the next one, which are two places of one offset.

* `HasToken` — the tokens of an entry and what they are to show
* `HasToken.stop_le` — they lie in the logical text
* `hover_on_token` — what is shown on them
-/

namespace Dockerfile

/-- The key of a directive ends inside the text. -/
theorem Directive.keyEnd_le {s : List Char} {d : Directive} (h : parse s = some d) :
    d.keyEnd ≤ s.length := by
  unfold parse at h
  split at h
  next f hf =>
    obtain rfl := Option.some.inj h
    have hlength := congrArg List.length (DirectiveForm.source_of_parse hf)
    simp only [DirectiveForm.source, List.length_append, List.length_cons] at hlength
    simp only [keyEnd, DirectiveForm.keyStart]
    omega
  next => cases h

namespace Document

/-- The tokens of an entry, references apart: where a token starts and stops in the logical text,
and what it is to show. -/
inductive HasToken (provider : Provider) (d : Document) (e : Entry) :
    Nat → Nat → Option (List Char) → Prop
  /-- A keyword, of an instruction or of its trigger: its documentation. -/
  | keyword {i : Instruction} {c : Command} {k : Keyword} (hnode : e.node = .instruction i)
    (hcommand : c = i.toCommand ∨ i.trigger = some c) (hknown : c.known? = some k) :
    HasToken provider d e c.wordStart c.wordEnd (provider (.keyword k))
  /-- The key of a directive: the documentation of `escape`. -/
  | escapeKey {x : Directive} (hnode : e.node = .directive x) :
    HasToken provider d e x.keyStart x.keyEnd (provider .escape)
  /-- A name that an `ARG` declares: the value declared, if there is one. -/
  | argName {x : Declaration} (hmem : x ∈ d.table.declarations) (hline : x.line = e.line.index)
    (harg : x.declarer = .arg) : HasToken provider d e x.start x.stop x.value

variable {s : List Char} {e : Entry} {provider : Provider}

/-! ## Names -/

/-- What the `ARG`s of a document declare is declared by the instruction of the entry on its
line. -/
theorem instruction_of_declaration (he : e ∈ (ofText s).entries) {x : Declaration}
    (hmem : x ∈ (ofText s).table.declarations) (hline : x.line = e.line.index) :
    ∃ i, e.node = .instruction i ∧ i.known? = some x.declarer.keyword
      ∧ x ∈ (ofText s).declarationsOf e.line.index i := by
  obtain ⟨e', he', i, hindex, hnode, hx⟩ := exists_of_mem_declarations hmem
  obtain rfl : e' = e := entry_ext he' he (hindex.trans hline)
  refine ⟨i, hnode, Declaration.known?_of_mem_ofCommand hx, ?_⟩
  rw [declarationsOf, ← declaredBy_eq he hnode]
  exact List.mem_filter.mpr ⟨hmem, by simp [hline]⟩

/-- On the names that an `ARG` declares there is no word. -/
theorem commandAt_eq_none_of_name (he : e ∈ (ofText s).entries) {i : Instruction}
    (hi : e.node = .instruction i) (harg : i.known? = some .arg) {x : Declaration}
    (hx : x ∈ (ofText s).declarationsOf e.line.index i) {offset : Nat} (ho : x.start ≤ offset) :
    i.commandAt offset = none := by
  have hparse := parse_of_instruction he hi
  have hplaced := Declaration.placedIn_of_mem_ofCommand (Instruction.parse_toCommand hparse) hx
  have hword := hplaced.wordEnd_lt_start
  refine Option.eq_none_iff_forall_ne_some.mpr fun c hc => ?_
  obtain ⟨rfl | ht, hspan⟩ := (Instruction.commandAt_eq_some_iff hparse).mp hc
  · omega
  · -- only `ONBUILD` has a trigger
    rw [(Instruction.trigger_eq_some hparse ht).1] at harg
    cases harg

/-! ## Tokens -/

namespace HasToken

variable {start stop : Nat} {answer : Option (List Char)}
  (ht : HasToken provider (ofText s) e start stop answer)

include ht

/-- A token lies in the logical text. -/
theorem stop_le (he : e ∈ (ofText s).entries) : stop ≤ e.line.text.length := by
  cases ht with
  | keyword hnode hcommand =>
    have hle := Instruction.wordEnd_le_of_command (parse_of_instruction he hnode) hcommand
    omega
  | escapeKey hnode => exact Directive.keyEnd_le (parse_of_directive he hnode)
  | argName hmem hline =>
    obtain ⟨i, hnode, -, hx⟩ := instruction_of_declaration he hmem hline
    have hend := Command.argumentsEnd_le
      (Instruction.parse_toCommand (parse_of_instruction he hnode))
    have hstop := (Declaration.span_of_mem_ofCommand hx).2.2
    omega

/-- A place on a token shows what the token is to show. -/
theorem hover_eq {p : Position} {offset : Nat} (hloc : (ofText s).locate p = some (e, offset))
    (ho : start ≤ offset ∧ offset ≤ stop) : Dockerfile.hover provider s p = answer := by
  have he := (locate_eq_some_iff.mp hloc).1
  cases ht with
  | keyword hnode hcommand hknown =>
    have hc := (Instruction.commandAt_eq_some_iff (parse_of_instruction he hnode)).mpr
      ⟨hcommand, ho⟩
    rw [hover_of_commandAt hloc hnode hc, hknown, Option.bind_some]
  | escapeKey hnode => rw [hover_of_directive hloc hnode, if_pos (Directive.onKey_iff.mpr ho)]
  | argName hmem hline harg =>
    obtain ⟨i, hnode, hknown, hx⟩ := instruction_of_declaration he hmem hline
    rw [harg] at hknown
    exact hover_of_ownName hloc hnode (commandAt_eq_none_of_name he hnode hknown hx ho.1) hknown
      (Declaration.find?_onName (Declaration.sorted_ofCommand _ _ _) hx ho)

end HasToken

/--
**Every keyword, key of a directive and name of an `ARG` is shown at every place of it.**

Each place that is located on the span of the token, its end included, shows what the token is to
show, be it on one side of a cut or on the other. And every offset of the span has such a place.
-/
theorem hover_on_token (he : e ∈ (ofText s).entries) {start stop : Nat}
    {answer : Option (List Char)} (ht : HasToken provider (ofText s) e start stop answer) :
    (∀ p offset, (ofText s).locate p = some (e, offset) → start ≤ offset → offset ≤ stop →
      Dockerfile.hover provider s p = answer) ∧
    ∀ offset, start ≤ offset → offset ≤ stop → ∃ line column : Nat,
      e.line.positionOf offset = some (line, column)
        ∧ (ofText s).locate ⟨line, column⟩ = some (e, offset) := by
  refine ⟨fun p offset hloc hstart hstop => ht.hover_eq hloc ⟨hstart, hstop⟩, ?_⟩
  intro offset _ hstop
  exact exists_locate_positionOf he (Nat.le_trans hstop (ht.stop_le he))

/-- `ARG f\`, a comment line, `oo=1`: offset 5 is inside the name, and it has two places, the end of
the first piece and the start of the second one. Both show the value. -/
theorem hover_on_token_both_sides :
    let s := "ARG f\\\n#c\noo=1".toList
    ∃ e ∈ (ofText s).entries, HasToken (fun _ => none) (ofText s) e 4 7 (some ['1'])
      ∧ (ofText s).locate ⟨0, 5⟩ = some (e, 5) ∧ (ofText s).locate ⟨2, 0⟩ = some (e, 5)
      ∧ Dockerfile.hover (fun _ => none) s ⟨0, 5⟩ = some ['1']
      ∧ Dockerfile.hover (fun _ => none) s ⟨2, 0⟩ = some ['1'] := by
  intro s
  let i : Instruction := ⟨⟨"ARG".toList, 0, "foo=1".toList, 4⟩, none⟩
  let e : Entry :=
    ⟨⟨0, "ARG foo=1".toList, ⟨0, 0, 5, 0, 0⟩, [⟨2, 0, 4, 10, 5⟩]⟩, .instruction i⟩
  let x : Declaration := ⟨"foo".toList, some ['1'], 4, 9, 0, 0, .arg⟩
  have he : e ∈ (ofText s).entries := by decide +kernel
  have ht : HasToken (fun _ => none) (ofText s) e 4 7 (some ['1']) :=
    .argName (x := x) (by decide +kernel) rfl rfl
  have hleft : (ofText s).locate ⟨0, 5⟩ = some (e, 5) := by decide +kernel
  have hright : (ofText s).locate ⟨2, 0⟩ = some (e, 5) := by decide +kernel
  obtain ⟨hshown, -⟩ := hover_on_token he ht
  exact ⟨e, he, ht, hleft, hright, hshown _ 5 hleft (by decide) (by decide),
    hshown _ 5 hright (by decide) (by decide)⟩

end Document

end Dockerfile
