import Dockerfile.Proofs.Directive.Format
import Dockerfile.Proofs.Hover.Justified
import Dockerfile.Proofs.Hover.Tokens
import Dockerfile.Proofs.Instruction.Split
import Dockerfile.Proofs.Variable.Braces

/-!
# Between blanks

The end of a span belongs to it, so a token is shown at the place behind it as well, where a blank
may follow. It is not shown farther away: keys, words and names are spans without blanks, and so are
references, with one exception. What stands behind the colon of a reference with braces may hold
blanks. A place with blanks on both sides, or with nothing there, is on a token only inside of such
a reference.

The two sides are those in the logical text. They can be on different lines of the file, with
comments in between.

* `BetweenBlanks`, `Solid` — places with blanks on both sides, and spans that have no such place
* `Document.solid_key`, `Document.solid_word`, `Document.solid_name` — tokens without blanks
* `Document.insideReference_of_on` — where a reference has blanks
* `Document.hover_between_blanks` — what is shown there
-/

namespace Dockerfile

/-! ## Spans without blanks -/

/-- No other character than a blank is on either side of the offset. -/
def BetweenBlanks (text : List Char) (offset : Nat) : Prop :=
  ∀ k c, k = offset ∨ k + 1 = offset → text[k]? = some c → isBlank c = true

/-- The span is not empty, and none of its characters is a blank. -/
def Solid (text : List Char) (start stop : Nat) : Prop :=
  start < stop ∧ ∀ k, start ≤ k → k < stop → ∃ c, text[k]? = some c ∧ isBlank c = false

section Spans

variable {text part : List Char} {start stop offset : Nat}

theorem betweenBlanks_iff : BetweenBlanks text offset
    ↔ text[offset]?.all isBlank = true ∧ (offset = 0 ∨ text[offset - 1]?.all isBlank = true) := by
  simp only [BetweenBlanks, Option.all_eq_true]
  constructor
  · intro h
    refine ⟨fun c => h offset c (Or.inl rfl), or_iff_not_imp_left.mpr fun hpos c => ?_⟩
    exact h (offset - 1) c (Or.inr (by omega))
  · rintro ⟨hright, hleft⟩ k c (rfl | rfl) hc
    · exact hright c hc
    · exact hleft.resolve_left (Nat.succ_ne_zero k) c hc

instance decidableBetweenBlanks (text : List Char) (offset : Nat) :
    Decidable (BetweenBlanks text offset) := decidable_of_iff _ betweenBlanks_iff.symm

theorem solid_of_append (front back : List Char) (htext : text = front ++ (part ++ back))
    (hne : part ≠ []) (hpart : ∀ c ∈ part, isBlank c = false) (hstart : start = front.length)
    (hstop : stop = start + part.length) : Solid text start stop := by
  have hpos := List.length_pos_iff.mpr hne
  refine ⟨by omega, fun k hk hlt => ?_⟩
  obtain ⟨j, rfl⟩ := Nat.exists_eq_add_of_le hk
  have hj : j < part.length := by omega
  refine ⟨part[j], ?_, hpart _ (List.getElem_mem hj)⟩
  rw [htext, hstart, List.getElem?_append_right (Nat.le_add_right _ _), Nat.add_sub_cancel_left,
    List.getElem?_append_left hj, List.getElem?_eq_getElem hj]

/-- **On a span without blanks, its end included, there is a character other than a blank on one
side.** -/
theorem Solid.not_betweenBlanks (h : Solid text start stop) (ho : start ≤ offset ∧ offset ≤ stop) :
    ¬BetweenBlanks text offset := by
  intro hb
  obtain ⟨k, hside, hk⟩ : ∃ k, (k = offset ∨ k + 1 = offset) ∧ start ≤ k ∧ k < stop := by
    have hlt := h.1
    rcases Nat.lt_or_eq_of_le ho.2 with hin | rfl
    · exact ⟨offset, Or.inl rfl, ho.1, hin⟩
    · exact ⟨offset - 1, Or.inr (by omega), by omega, by omega⟩
  obtain ⟨c, hc, hsolid⟩ := h.2 k hk.1 hk.2
  exact Bool.false_ne_true (hsolid.symm.trans (hb k c hside hc))

end Spans

/-! ## Characters of tokens -/

namespace ReferenceForm

theorem IsName.isBlank_of_mem {name : List Char} (h : IsName name) :
    ∀ c ∈ name, isBlank c = false :=
  fun c hc => isBlank_of_class rfl rfl (h.isNameChar_of_mem c hc)

/-- **There are no blanks in a form without a word.** -/
theorem Begins.isBlank_source {f : ReferenceForm} {s : List Char} (h : f.Begins s) :
    (∀ c ∈ f.source, isBlank c = false)
      ∨ ∃ operator word, isOperator operator = true ∧ f = .withWord f.name operator word := by
  cases h with
  | bare hname =>
    left
    exact List.forall_mem_cons.mpr ⟨rfl, hname.isBlank_of_mem⟩
  | braced hname =>
    left
    refine List.forall_mem_cons.mpr ⟨rfl, List.forall_mem_cons.mpr ⟨rfl, ?_⟩⟩
    exact List.forall_mem_append.mpr ⟨hname.isBlank_of_mem, List.forall_mem_singleton.mpr rfl⟩
  | withWord _ hoperator _ => exact Or.inr ⟨_, _, isOperator_iff.mpr hoperator, rfl⟩

end ReferenceForm

/-- The word of a command that is read inside of a text. -/
theorem Command.solid_word {text s : List Char} {c : Command} (front back : List Char)
    (htext : text = front ++ (s ++ back)) (h : parse front.length s = some c) :
    Solid text c.wordStart c.wordEnd := by
  obtain ⟨f, hf, rfl⟩ := exists_form h
  have hform := InstructionForm.wellFormed_of_parse hf
  refine solid_of_append (front ++ f.lead) (f.gap ++ (f.arguments ++ f.trail) ++ back) ?_
    hform.keyword_ne_nil hform.isBlank_keyword List.length_append.symm rfl
  rw [htext, ← InstructionForm.source_of_parse hf, InstructionForm.source]
  simp only [List.append_assoc]

/-- The reference is written with a word, be it `${name:-word}`, `${name:+word}` or
`${name:?word}`. -/
def Reference.HasWord (r : Reference) (text : List Char) : Prop :=
  ∃ operator word, ReferenceForm.isOperator operator = true
    ∧ text.extract r.start r.stop = (ReferenceForm.withWord r.name operator word).source

/-- **Between blanks, a form is only found from the inside**, and then it has a word. -/
theorem Reference.inside_of_on {r : Reference} {f : ReferenceForm}
    {s text front back : List Char} {offset : Nat} (hf : f.Begins s)
    (htext : text = front ++ (f.source ++ back)) (hname : f.name = r.name)
    (hstart : r.start = front.length) (hstop : r.stop = r.start + f.source.length)
    (hb : BetweenBlanks text offset) (ho : r.start ≤ offset ∧ offset ≤ r.stop) :
    r.HasWord text ∧ r.start < offset ∧ offset < r.stop := by
  rcases hf.isBlank_source with hsolid | ⟨operator, word, hoperator, hform⟩
  · have hne : f.source ≠ [] := List.length_pos_iff.mp f.source_length_pos
    exact absurd hb ((solid_of_append _ _ htext hne hsolid hstart hstop).not_betweenBlanks ho)
  · rw [hname] at hform
    refine ⟨⟨operator, word, hoperator, ?_⟩, ?_⟩
    · rw [extract_of_append htext hstart hstop, hform]
    -- the dollar sign and the closing brace are no blanks
    obtain ⟨body, hbody⟩ : ∃ body, f.source = '$' :: (body ++ ['}']) :=
      ⟨'{' :: (r.name ++ ':' :: operator :: word), by rw [hform]; simp [ReferenceForm.source]⟩
    have hlength : f.source.length = body.length + 2 := by simp [hbody]
    have hdollar : Solid text r.start (r.start + 1) := by
      refine solid_of_append front (body ++ ['}'] ++ back) (?_ : text = front ++ (['$'] ++ _))
        (List.cons_ne_nil _ _) (List.forall_mem_singleton.mpr rfl) hstart rfl
      rw [htext, hbody]
      rfl
    have hbrace : Solid text (r.start + body.length + 1) r.stop := by
      refine solid_of_append (front ++ '$' :: body) back (?_ : text = _ ++ (['}'] ++ back))
        (List.cons_ne_nil _ _) (List.forall_mem_singleton.mpr rfl) ?_ ?_
      · rw [htext, hbody]
        simp only [List.append_assoc, List.cons_append]
      · rw [hstart, List.length_append, List.length_cons]
        omega
      · rw [hstop, hlength, List.length_singleton]
        omega
    have hfirst := mt hdollar.not_betweenBlanks (not_not_intro hb)
    have hlast := mt hbrace.not_betweenBlanks (not_not_intro hb)
    omega

namespace Document

variable {s : List Char} {e : Entry} {p : Position} {offset : Nat}

/-- The offset is inside a reference with a word, in the arguments of the instruction. -/
structure InsideReference (d : Document) (e : Entry) (offset : Nat) (r : ResolvedReference) :
    Prop where
  instruction : ∃ i, e.node = .instruction i
  mem : r ∈ d.referencesOn e.line.index
  hasWord : r.HasWord e.line.text
  start_lt : r.start < offset
  lt_stop : offset < r.stop

/-! ## Tokens -/

/-- The key of a directive. -/
theorem solid_key (he : e ∈ (ofText s).entries) {x : Directive} (hx : e.node = .directive x) :
    Solid e.line.text x.keyStart x.keyEnd := by
  obtain ⟨f, ⟨hf, hsource⟩, rfl⟩ := Directive.parse_eq_some_iff.mp (parse_of_directive he hx)
  obtain ⟨c, more, hcons, -, -⟩ := hf.key
  refine solid_of_append (f.lead ++ '#' :: f.gap) ('=' :: f.value) ?_ ?_
    (fun c hc => isBlank_of_class rfl rfl (hf.key.isKeyChar_of_mem c hc)) ?_ rfl
  · rw [← hsource]
    simp [DirectiveForm.source]
  · exact hcons ▸ List.cons_ne_nil _ _
  · simp only [DirectiveForm.keyStart, List.length_append, List.length_cons]
    omega

/-- The word of an instruction or of its trigger. -/
theorem solid_word (he : e ∈ (ofText s).entries) {i : Instruction} (hi : e.node = .instruction i)
    {c : Command} (hc : c = i.toCommand ∨ i.trigger = some c) :
    Solid e.line.text c.wordStart c.wordEnd := by
  have hparse := parse_of_instruction he hi
  have hown := Instruction.parse_toCommand hparse
  rcases hc with rfl | ht
  · exact Command.solid_word [] [] (List.append_nil _).symm hown
  · obtain ⟨front, back, htext, hstart⟩ := Command.exists_append hown
    obtain ⟨-, -, htrigger⟩ := Instruction.trigger_eq_some hparse ht
    rw [hstart, Nat.zero_add] at htrigger
    exact Command.solid_word front back htext htrigger

/-- A name that is declared on the line. -/
theorem solid_name (he : e ∈ (ofText s).entries) {i : Instruction} (hi : e.node = .instruction i)
    {x : Declaration} (hx : x ∈ (ofText s).declarationsOf e.line.index i) :
    Solid e.line.text x.start x.stop := by
  have hparse := Instruction.parse_toCommand (parse_of_instruction he hi)
  have hplaced := Declaration.placedIn_of_mem_ofCommand hparse hx
  obtain ⟨front, back, htext, hstart⟩ := hplaced.text_eq
  have hne := (Declaration.exists_of_mem_ofCommand hx).1
  refine solid_of_append front back htext hne ?_ hstart.symm rfl
  exact fun c hc => isBlank_of_isVariableChar (Declaration.isVariableChar_of_mem_ofCommand hx c hc)

/-- **Between blanks, a reference of a document is only found from the inside.** -/
theorem insideReference_of_on (he : e ∈ (ofText s).entries) {i : Instruction}
    (hi : e.node = .instruction i) (hb : BetweenBlanks e.line.text offset) {r : ResolvedReference}
    (hr : r ∈ (ofText s).referencesOn e.line.index) (ho : r.start ≤ offset ∧ offset ≤ r.stop) :
    (ofText s).InsideReference e offset r := by
  have hmem := hr
  rw [referencesOn_eq he hi] at hmem
  obtain ⟨q, hq, rfl⟩ := List.mem_map.mp hmem
  obtain ⟨f, front, back, harguments, hf, hname, hstart, hstop⟩ :=
    Reference.exists_form_of_mem_find hq
  obtain ⟨before, behind, htext, hbefore⟩ :=
    Command.exists_append (Instruction.parse_toCommand (parse_of_instruction he hi))
  have hplace : e.line.text = (before ++ front) ++ (f.source ++ (back ++ behind)) := by
    rw [htext, harguments]
    simp only [List.append_assoc]
  have hfront : q.start = (before ++ front).length := by
    rw [hstart, hbefore, List.length_append, Nat.zero_add]
  obtain ⟨hword, hlt, hlt'⟩ := Reference.inside_of_on hf hplace hname hfront hstop hb ho
  exact ⟨⟨i, hi⟩, hr, hword, hlt, hlt'⟩

/-! ## Main statement -/

/-- If a target has a reason to be shown between blanks, the reason is a reference. -/
theorem exists_insideReference (he : e ∈ (ofText s).entries) (hb : BetweenBlanks e.line.text offset)
    {t : Target} (ht : Justified (ofText s) e offset t) :
    ∃ r, (ofText s).InsideReference e offset r := by
  cases ht with
  | escapeKey hnode _ hkey _ => exact absurd hb ((solid_key he hnode).not_betweenBlanks hkey)
  | keyword hnode hcommand hword _ =>
    exact absurd hb
      ((solid_word he hnode (hcommand.imp_right And.right)).not_betweenBlanks hword)
  | ownName hdeclares _ _ hline hname =>
    obtain ⟨i, hnode, -, hx⟩ := instruction_of_declaration he hdeclares.1 hline
    exact absurd hb ((solid_name he hnode hx).not_betweenBlanks hname)
  | @reference x v r _ _ hreference _ hspan _ _ _ =>
    obtain ⟨i, hnode⟩ := instruction_of_mem_referencesOn he hreference
    exact ⟨r, insideReference_of_on he hnode hb hreference hspan⟩

/--
**Between blanks nothing is shown**, except inside of a reference with a word.

Take a place of a text and the offset that it is located on. If no other character than a blank is
on either side of the offset in the logical text, nothing is shown, whatever the source of
documentation, unless the offset is strictly inside of a reference in the arguments of an
instruction, and the reference has a word. Then its value is shown, if it has one.
-/
theorem hover_between_blanks (h : (ofText s).locate p = some (e, offset))
    (hb : BetweenBlanks e.line.text offset) (provider : Provider) :
    ((∀ r, ¬(ofText s).InsideReference e offset r) → Dockerfile.hover provider s p = none) ∧
      ∀ r, (ofText s).InsideReference e offset r → Dockerfile.hover provider s p = r.value := by
  have he := (locate_eq_some_iff.mp h).1
  constructor
  · intro hnone
    have htarget : (ofText s).target? p = none := by
      refine Option.eq_none_iff_forall_ne_some.mpr fun t ht => ?_
      obtain ⟨e', offset', hloc, hreason⟩ := justified_of_target? ht
      rw [h] at hloc
      obtain ⟨rfl, rfl⟩ := Prod.mk.inj (Option.some.inj hloc)
      obtain ⟨r, hr⟩ := exists_insideReference he hb hreason
      exact hnone r hr
    rw [Dockerfile.hover, Document.hover, htarget, Option.bind_none]
  · intro r hr
    obtain ⟨i, hi⟩ := hr.instruction
    have hfind : ((ofText s).referencesOn e.line.index).find? (·.contains offset) = some r := by
      refine find?_contains_of_mem (sorted_referencesOn he hi) hr.mem
        ⟨Nat.le_of_lt hr.start_lt, hr.lt_stop⟩ fun q hq hstop => ?_
      -- another one would have to contain the offset as well
      have hq' := insideReference_of_on he hi hb hq
        ⟨by have := (span_of_mem_referencesOn he hi hq).1; omega, Nat.le_of_eq hstop.symm⟩
      exact Nat.lt_irrefl _ (hstop ▸ hq'.lt_stop)
    refine hover_of_find?_reference he hi h ?_ ?_ hfind provider
    · intro c hc hon
      exact (solid_word he hi hc).not_betweenBlanks hon hb
    · intro _ x hx hon
      rw [declaredBy_eq he hi] at hx
      exact (solid_name he hi hx).not_betweenBlanks hon hb

/-- The word of a reference goes on behind a continuation and a comment, with a blank on either
side: both places between them show the value. Between the two blanks behind the reference nothing
is shown. -/
theorem hover_between_blanks_inside_and_behind :
    let s := "ARG a=1\nRUN $\x7ba:-x \\\n#c\n y\x7d  z".toList
    ∃ e, (ofText s).locate ⟨1, 11⟩ = some (e, 11) ∧ (ofText s).locate ⟨3, 0⟩ = some (e, 11)
      ∧ (ofText s).locate ⟨3, 4⟩ = some (e, 15)
      ∧ BetweenBlanks e.line.text 11 ∧ BetweenBlanks e.line.text 15
      ∧ Dockerfile.hover (fun _ => none) s ⟨1, 11⟩ = some ['1']
      ∧ Dockerfile.hover (fun _ => none) s ⟨3, 0⟩ = some ['1']
      ∧ Dockerfile.hover (fun _ => none) s ⟨3, 4⟩ = none := by
  intro s
  let i : Instruction := ⟨⟨"RUN".toList, 0, "$\x7ba:-x  y\x7d  z".toList, 4⟩, none⟩
  let e : Entry := ⟨⟨1, "RUN $\x7ba:-x  y\x7d  z".toList, ⟨1, 0, 11, 8, 0⟩, [⟨3, 0, 6, 24, 11⟩]⟩,
    .instruction i⟩
  let r : ResolvedReference := ⟨⟨['a'], 4, 14, 1⟩, some ⟨['a'], some ['1'], 4, 7, 0, 0, .arg⟩⟩
  have hleft : (ofText s).locate ⟨1, 11⟩ = some (e, 11) := by decide +kernel
  have hright : (ofText s).locate ⟨3, 0⟩ = some (e, 11) := by decide +kernel
  have hbehind : (ofText s).locate ⟨3, 4⟩ = some (e, 15) := by decide +kernel
  have hinner : BetweenBlanks e.line.text 11 := by decide +kernel
  have houter : BetweenBlanks e.line.text 15 := by decide +kernel
  have hr : (ofText s).InsideReference e 11 r :=
    ⟨⟨i, rfl⟩, by decide +kernel, ⟨'-', "x  y".toList, rfl, by decide +kernel⟩, by decide,
      by decide⟩
  have hnone : ∀ q, ¬(ofText s).InsideReference e 15 q := by
    intro q hq
    have hspans : ∀ q ∈ (ofText s).referencesOn 1, q.stop ≤ 14 := by decide +kernel
    exact absurd (hspans q hq.mem) (by have := hq.lt_stop; omega)
  exact ⟨e, hleft, hright, hbehind, hinner, houter,
    (hover_between_blanks hleft hinner fun _ => none).2 r hr,
    (hover_between_blanks hright hinner fun _ => none).2 r hr,
    (hover_between_blanks hbehind houter fun _ => none).1 hnone⟩

end Document

end Dockerfile
