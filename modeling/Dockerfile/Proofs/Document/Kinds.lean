import Dockerfile.Proofs.Document.Escape
import Dockerfile.Proofs.Instruction.Arguments
import Dockerfile.Proofs.Line.Comments
import Dockerfile.Proofs.Line.Endings

/-!
# What a line is, by its text

A line is a directive if the top of the document sees one in it, and the top depends on all lines in
front. Apart from that, the kind of a line can be read off its text: it is blank, it has the form of
a comment, or it is an instruction, since every other text is one. And a line that has the form of a
comment is a physical line as it stands, because comment lines are not joined with others.

* `Node.ofLine_eq_blank_iff` and the like — the kinds, given the directive that the top sees
* `Document.isOpen_headerAt_iff` — the top is open behind blank lines and directives only
* `Document.kinds_exact` — the kinds of the entries of a document
-/

namespace Dockerfile

/-! ## Texts of logical lines -/

/-- No line ending is inside a logical line. -/
theorem Document.not_mem_text {s : List Char} {e : Entry} (he : e ∈ (ofText s).entries) :
    '\r' ∉ e.line.text ∧ '\n' ∉ e.line.text := by
  obtain ⟨bs, hlines, hmap⟩ := exists_blocks s
  obtain ⟨A, b, B, rfl, hline⟩ := exists_split hmap he
  have hkept : ∀ p ∈ b.first :: b.more, '\r' ∉ p.kept ∧ '\n' ∉ p.kept := by
    intro p hp
    have hl : p.line ∈ PhysicalLine.ofText s :=
      mem_lines hlines (b.joins.sublist.subset (List.mem_map_of_mem hp))
    have hraw : p.line.toRawLine ∈ RawLine.ofText s := by
      rw [← PhysicalLine.map_toRawLine_number 0 0 (RawLine.ofText s)]
      exact List.mem_map_of_mem hl
    have hsubset := (b.joins.kept_isPrefix hp).subset
    obtain ⟨hcr, hlf⟩ := RawLine.not_mem_content hraw
    exact ⟨fun hmem => hcr (hsubset hmem), fun hmem => hlf (hsubset hmem)⟩
  rw [hline, Block.logical, LogicalLine.text_ofPieces]
  constructor
  · intro hmem
    obtain ⟨p, hp, hmem⟩ := List.mem_flatMap.mp hmem
    exact (hkept p hp).1 hmem
  · intro hmem
    obtain ⟨p, hp, hmem⟩ := List.mem_flatMap.mp hmem
    exact (hkept p hp).2 hmem

/-! ## One line -/

namespace Node

variable {l : LogicalLine} {fed : Option Directive}

theorem ofLine_eq_directive_iff {x : Directive} : ofLine l fed = .directive x ↔ fed = some x := by
  constructor
  · exact fed_of_directive
  · rintro rfl
    rfl

/-- A line that is not blank and not a comment is an instruction. -/
theorem ofLine_none (hb : l.isBlank = false) (hc : l.isComment = false) {i : Instruction}
    (hi : Instruction.parse 0 l.text = some i) : ofLine l none = .instruction i := by
  simp [ofLine, hb, hc, hi]

section

-- what the top sees as a directive has the form of a comment
variable (hfed : ∀ x, fed = some x → l.isComment = true)

include hfed

theorem ofLine_of_isBlank (hb : l.isBlank = true) : ofLine l fed = .blank := by
  cases fed with
  | some x =>
    have hc := hfed x rfl
    rw [LogicalLine.isComment, isCommentText_of_isAllBlank hb] at hc
    cases hc
  | none => simp [ofLine, hb]

theorem ofLine_of_isComment (hc : l.isComment = true) :
    ofLine l fed = .comment ∨ ∃ x, ofLine l fed = .directive x := by
  cases fed with
  | some x => exact Or.inr ⟨x, rfl⟩
  | none =>
    have hb : l.isBlank = false := by
      rw [← Bool.not_eq_true]
      intro hb
      rw [LogicalLine.isComment, isCommentText_of_isAllBlank hb] at hc
      cases hc
    exact Or.inl (by simp [ofLine, hb, hc])

/-- **The kind of a line without a line feed**: its text is blank, has the form of a comment, or is
an instruction. -/
theorem ofLine_cases (hlf : '\n' ∉ l.text) :
    l.isBlank = true ∧ l.isComment = false ∧ ofLine l fed = .blank
      ∨ l.isBlank = false ∧ l.isComment = true
        ∧ (ofLine l fed = .comment ∨ ∃ x, ofLine l fed = .directive x)
      ∨ l.isBlank = false ∧ l.isComment = false
        ∧ ∃ i, Instruction.parse 0 l.text = some i ∧ ofLine l fed = .instruction i := by
  cases hb : l.isBlank with
  | true => exact Or.inl ⟨rfl, isCommentText_of_isAllBlank hb, ofLine_of_isBlank hfed hb⟩
  | false =>
    cases hc : l.isComment with
    | true => exact Or.inr (Or.inl ⟨rfl, rfl, ofLine_of_isComment hfed hc⟩)
    | false =>
      obtain ⟨i, hi⟩ := Instruction.exists_parse 0 hb hlf
      have hnone : fed = none := by
        refine Option.eq_none_iff_forall_ne_some.mpr fun x hx => ?_
        exact absurd ((hfed x hx).symm.trans hc) Bool.noConfusion
      exact Or.inr (Or.inr ⟨rfl, rfl, i, hi, hnone ▸ ofLine_none hb hc hi⟩)

end

end Node

/-! ## The lines in front -/

theorem Node.not_endsTop_iff {n : Node} :
    ¬n.EndsTop ↔ n = .blank ∨ ∃ x, n = .directive x := by
  cases n <;> simp [EndsTop]

/-- **The top stays open across a line that is blank or a directive**, and no other line. -/
theorem Header.isOpen_next_iff {h : Header} {e : Entry} (hlf : '\n' ∉ e.line.text)
    (hnode : e.node = .ofLine e.line (h.feed e.line.text).1) :
    (h.next e).isOpen = true ↔ h.isOpen = true ∧ ¬e.node.EndsTop := by
  cases ho : h.isOpen with
  | false =>
    rw [next, feed_of_closed ho, ho]
    simp
  | true =>
    rw [hnode, Node.not_endsTop_iff, next]
    by_cases hk : keepsOpen e.line.text = true
    · rcases Bool.or_eq_true_iff.mp hk with hb | hd
      · have hblank : Node.ofLine e.line none = .blank := Node.ofLine_of_isBlank (by simp) hb
        rw [feed_of_blank hb, ho, hblank]
        simp
      · obtain ⟨x, hx⟩ := Option.isSome_iff_exists.mp hd
        rw [feed_of_directive ho hx]
        simp [ho, Node.ofLine]
    · have hk : keepsOpen e.line.text = false := by simpa using hk
      have hb : e.line.isBlank = false := (Bool.or_eq_false_iff.mp hk).1
      rw [feed_of_other ho hk]
      cases hc : e.line.isComment with
      | true => simp [Node.ofLine, hb, hc]
      | false =>
        obtain ⟨i, hi⟩ := Instruction.exists_parse 0 hb hlf
        rw [Node.ofLine_none hb hc hi]
        simp

namespace Document

variable {s : List Char} {n : Nat} {e : Entry}

/-- **The top is open as long as all lines in front are blank or directives.** -/
theorem isOpen_headerAt_iff (he : (ofText s).entries[n]? = some e) :
    ((ofText s).headerAt n).isOpen = true ↔ ∀ m < n, ∀ a : Entry,
      (ofText s).entries[m]? = some a → a.node = .blank ∨ ∃ x, a.node = .directive x := by
  induction n generalizing e with
  | zero => simp [headerAt, Header.behind, Header.initial]
  | succ n ih =>
    obtain ⟨hlt, -⟩ := List.getElem?_eq_some_iff.mp he
    have ha := List.getElem?_eq_getElem (Nat.lt_of_succ_lt hlt)
    have hlf := (not_mem_text (List.mem_of_getElem? ha)).2
    rw [headerAt_succ ha, Header.isOpen_next_iff hlf (joinedFrom_escapeAt ha).2, ih ha,
      Node.not_endsTop_iff]
    constructor
    · rintro ⟨hfront, hlast⟩ m hm a ham
      rcases Nat.lt_succ_iff_lt_or_eq.mp hm with hm | rfl
      · exact hfront m hm a ham
      · obtain rfl := Option.some.inj (ha.symm.trans ham)
        exact hlast
    · intro hall
      exact ⟨fun m hm a ham => hall m (Nat.lt_succ_of_lt hm) a ham,
        hall n (Nat.lt_succ_self n) _ ha⟩

/-! ## Main statement -/

/-- A comment or a directive is a comment line as it stands. -/
theorem isComment_iff_isWhole (he : e ∈ (ofText s).entries) :
    e.line.isComment = true ↔ ∃ l ∈ (ofText s).lines, l.isComment = true ∧ e.line.IsWhole l := by
  have hmap : (ofText s).entries.map Entry.line = _ :=
    map_line_foldLines (fun _ _ => rfl) 0 Header.initial (PhysicalLine.ofText s)
  obtain ⟨x, hx, hline⟩ := List.mem_map.mp (hmap ▸ List.mem_map_of_mem he)
  rw [← hline]
  exact isComment_iff_of_mem_joinedUnder hx

/--
**The kind of a line is exact.**

* An entry is blank iff its text is.
* It is a directive iff its text is an `escape` directive and all entries in front of it are blank
  or directives.
* It is a comment iff its text has the form of a comment and it is not a directive.
* In all other cases it is an instruction, which has been read off its text.
* A line has the form of a comment iff it is one physical comment line from start to end. So it is
  for comments and directives, and for every text and every way to choose the escape texts under
  which lines are joined.
-/
theorem kinds_exact (s : List Char) :
    let d : Document := ofText s
    (∀ (n : Nat) (e : Entry), d.entries[n]? = some e →
      (e.node = .blank ↔ isAllBlank e.line.text = true) ∧
      (∀ x, e.node = .directive x ↔ Directive.parse e.line.text = some x ∧ x.recognized = true ∧
        ∀ m < n, ∀ a : Entry, d.entries[m]? = some a →
          a.node = .blank ∨ ∃ y, a.node = .directive y) ∧
      (e.node = .comment ↔ isCommentText e.line.text = true ∧ ∀ x, e.node ≠ .directive x) ∧
      ((∃ i, Instruction.parse 0 e.line.text = some i ∧ e.node = .instruction i) ↔
        isAllBlank e.line.text = false ∧ isCommentText e.line.text = false) ∧
      ((e.node = .comment ∨ ∃ x, e.node = .directive x) ↔
        ∃ l ∈ d.lines, l.isComment = true ∧ e.line.IsWhole l)) ∧
    ∀ (σ : Type) (escape : σ → List Char) (next : σ → LogicalLine → σ) (index : Nat) (start : σ),
      ∀ x ∈ joinedUnder escape next index start d.lines, isCommentText x.2.text = true ↔
        ∃ l ∈ d.lines, l.isComment = true ∧ x.2.IsWhole l := by
  intro d
  refine ⟨fun n e he => ?_, fun σ escape next index start x hx =>
    isComment_iff_of_mem_joinedUnder hx⟩
  have hmem : e ∈ d.entries := List.mem_of_getElem? he
  have hlf : '\n' ∉ e.line.text := (not_mem_text hmem).2
  have hnode : e.node = .ofLine e.line ((d.headerAt n).feed e.line.text).1 :=
    (joinedFrom_escapeAt he).2
  have hdirective : ∀ x, e.node = .directive x ↔ Directive.parse e.line.text = some x
      ∧ x.recognized = true ∧ ∀ m < n, ∀ a : Entry, d.entries[m]? = some a →
        a.node = .blank ∨ ∃ y, a.node = .directive y := by
    intro x
    rw [hnode, Node.ofLine_eq_directive_iff, Header.feed_fst_eq_some_iff, isOpen_headerAt_iff he,
      Directive.known?_eq_some_iff, and_comm, and_assoc]
  have hfed : ∀ x, ((d.headerAt n).feed e.line.text).1 = some x → e.line.isComment = true :=
    fun x hx => Directive.isCommentText_of_parse (Header.parse_of_feed hx)
  have hcases := hnode ▸ Node.ofLine_cases hfed hlf
  have hwhole := isComment_iff_isWhole hmem
  refine ⟨?_, hdirective, ?_, ?_, ?_⟩
  · show e.node = .blank ↔ e.line.isBlank = true
    rcases hcases with ⟨hb, -, hk⟩ | ⟨hb, -, hk | ⟨x, hk⟩⟩ | ⟨hb, -, i, -, hk⟩ <;> simp [hb, hk]
  · show e.node = .comment ↔ e.line.isComment = true ∧ ∀ x, e.node ≠ .directive x
    rcases hcases with ⟨-, hc, hk⟩ | ⟨-, hc, hk | ⟨x, hk⟩⟩ | ⟨-, hc, i, -, hk⟩ <;> simp [hc, hk]
  · show _ ↔ e.line.isBlank = false ∧ e.line.isComment = false
    rcases hcases with ⟨hb, hc, hk⟩ | ⟨hb, hc, hk | ⟨x, hk⟩⟩ | ⟨hb, hc, i, hi, hk⟩ <;>
      simp [hb, hc, hk]
    exact hi
  · rw [← hwhole]
    rcases hcases with ⟨-, hc, hk⟩ | ⟨-, hc, hk | ⟨x, hk⟩⟩ | ⟨-, hc, i, -, hk⟩ <;> simp [hc, hk]

/-- A directive behind a blank line, a comment, which closes the top, the same directive again,
which is a comment now, and an instruction, which passes over a comment line. -/
theorem kinds_exact_second_directive :
    let d : Document := ofText "\n#escape=x\n # y\n#escape=x\nRUN \\\n#z\n".toList
    ∃ e : Entry, d.entries[3]? = some e ∧ Directive.parse e.line.text ≠ none ∧ e.node = .comment
      ∧ (∃ l ∈ d.lines, l.isComment = true ∧ e.line.IsWhole l) ∧ d.entries.length = 5 := by
  intro d
  let e : Entry := ⟨⟨3, "#escape=x".toList, ⟨3, 0, 9, 16, 0⟩, []⟩, .comment⟩
  have he : d.entries[3]? = some e := by decide +kernel
  obtain ⟨hkinds, -⟩ := kinds_exact "\n#escape=x\n # y\n#escape=x\nRUN \\\n#z\n".toList
  obtain ⟨-, -, -, -, hwhole⟩ := hkinds 3 e he
  exact ⟨e, he, by decide +kernel, rfl, hwhole.mp (Or.inl rfl), by decide +kernel⟩

end Document

end Dockerfile
