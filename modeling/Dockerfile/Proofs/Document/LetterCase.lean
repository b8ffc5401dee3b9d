import Dockerfile.Proofs.Document.Instructions
import Dockerfile.Proofs.Document.PositionMap
import Dockerfile.Proofs.Instruction.Words
import Dockerfile.Proofs.Variable.LetterCase

/-!
# Documents and the case of keywords

The document of a text in lower case has the same entries in lower case. So if two texts are the
same in lower case, their entries are the same but for case; and if the texts differ on keywords and
the keys of directives only, then so do the logical texts of the entries.

* `entries_lowerCase`, `header_lowerCase` — the document of a text in lower case
* `Document.Caseless` — the offsets of characters whose case does not count
* `sameButCase_of_entries` — the instructions of two such texts are the same but for case
-/

namespace Dockerfile

/-! ## Entries in lower case -/

/-- The kinds of logical lines. -/
inductive NodeKind
  | blank
  | comment
  | directive
  | instruction
deriving DecidableEq

namespace Node

/-- The kind of a logical line. -/
def kind : Node → NodeKind
  | .blank => .blank
  | .comment => .comment
  | .directive _ => .directive
  | .instruction _ => .instruction

/-- The directive or instruction in lower case. -/
def small : Node → Node
  | .blank => .blank
  | .comment => .comment
  | .directive d => .directive d.small
  | .instruction i => .instruction i.small

theorem kind_small (n : Node) : n.small.kind = n.kind := by
  cases n <;> rfl

theorem ofLine_small (l : LogicalLine) (fed : Option Directive) :
    ofLine l.small (fed.map Directive.small) = (ofLine l fed).small := by
  cases fed with
  | some d => rfl
  | none =>
    have hblank : l.small.isBlank = l.isBlank := isAllBlank_lowerCase l.text
    have hcomment : l.small.isComment = l.isComment := isCommentText_lowerCase l.text
    have hparse : Instruction.parse 0 l.small.text
        = (Instruction.parse 0 l.text).map Instruction.small :=
      Instruction.parse_lowerCase 0 l.text
    simp only [Option.map_none, ofLine, hblank, hcomment, hparse]
    split
    · rfl
    split
    · rfl
    cases Instruction.parse 0 l.text <;> rfl

end Node

/-- The entry in lower case. -/
def Entry.small (e : Entry) : Entry := ⟨e.line.small, e.node.small⟩

theorem Entry.classify_small (h : Header) (l : LogicalLine) :
    classify h.small l.small = ((classify h l).1.small, (classify h l).2.small) := by
  have hfeed : h.small.feed l.small.text
      = ((h.feed l.text).1.map Directive.small, (h.feed l.text).2.small) :=
    Header.feed_lowerCase h l.text
  rw [classify, hfeed]
  simp only [Node.ofLine_small]
  rfl

namespace Document

theorem ofLines_lowerCase (s : List Char) : Entry.ofLines (PhysicalLine.ofText (lowerCase s))
    = ((Entry.ofLines (PhysicalLine.ofText s)).1.map Entry.small,
      (Entry.ofLines (PhysicalLine.ofText s)).2.small) := by
  rw [PhysicalLine.ofText_lowerCase]
  exact foldLines_small Header.escape_small Entry.classify_small 0 .initial _

/-- **The entries of a text in lower case** are its entries in lower case. -/
theorem entries_lowerCase (s : List Char) :
    (ofText (lowerCase s)).entries = (ofText s).entries.map Entry.small :=
  congrArg Prod.fst (ofLines_lowerCase s)

theorem header_lowerCase (s : List Char) :
    (ofText (lowerCase s)).header = (ofText s).header.small :=
  congrArg Prod.snd (ofLines_lowerCase s)

end Document

/-! ## Characters whose case does not count -/

/-- The offset is that of a character of the word, and the word is a keyword. -/
def Command.HasKeywordAt (c : Command) (offset : Nat) : Prop :=
  c.known? ≠ none ∧ c.wordStart ≤ offset ∧ offset < c.wordEnd

instance (c : Command) (offset : Nat) : Decidable (c.HasKeywordAt offset) :=
  inferInstanceAs (Decidable (_ ∧ _))

/-- The offset in the logical text is that of a character of a keyword, of an instruction or of its
trigger, or of the key of a directive. -/
def Node.Caseless : Node → Nat → Prop
  | .instruction i, offset => i.HasKeywordAt offset ∨ ∃ t ∈ i.trigger, t.HasKeywordAt offset
  | .directive d, offset => d.keyStart ≤ offset ∧ offset < d.keyEnd
  | .blank, _ => False
  | .comment, _ => False

instance (n : Node) (offset : Nat) : Decidable (n.Caseless offset) :=
  match n with
  | .instruction i =>
    inferInstanceAs (Decidable (i.HasKeywordAt offset ∨ ∃ t ∈ i.trigger, t.HasKeywordAt offset))
  | .directive d => inferInstanceAs (Decidable (d.keyStart ≤ offset ∧ offset < d.keyEnd))
  | .blank => inferInstanceAs (Decidable False)
  | .comment => inferInstanceAs (Decidable False)

/-- The offset in the whole text is that of a character of a keyword or of the key of a directive,
on whichever fragment it stands. -/
def Document.Caseless (d : Document) (n : Nat) : Prop :=
  ∃ e ∈ d.entries, ∃ f ∈ e.line.fragments, ∃ column < f.endColumn,
    n = f.offset + column ∧ e.node.Caseless (f.logicalStart + column)

instance (d : Document) (n : Nat) : Decidable (d.Caseless n) :=
  inferInstanceAs (Decidable (∃ e ∈ d.entries, ∃ f ∈ e.line.fragments, ∃ column < f.endColumn,
    n = f.offset + column ∧ e.node.Caseless (f.logicalStart + column)))

namespace Document

/-! ## Two texts -/

section SameCase

variable {s s' : List Char} (hcase : lowerCase s' = lowerCase s)

include hcase

/-- **Texts that are the same in lower case** have entries that are the same in lower case. -/
theorem map_small_entries :
    (ofText s').entries.map Entry.small = (ofText s).entries.map Entry.small := by
  rw [← entries_lowerCase, ← entries_lowerCase, hcase]

theorem escape_eq_of_lowerCase : (ofText s').escape = (ofText s).escape := by
  have hheader : (ofText s').header.small = (ofText s).header.small := by
    rw [← header_lowerCase, ← header_lowerCase, hcase]
  have hescape := congrArg Header.escape hheader
  rwa [Header.escape_small, Header.escape_small] at hescape

end SameCase

section SameElsewhere

variable {s s' : List Char} (hrest : ∀ n, ¬(ofText s).Caseless n → s'[n]? = s[n]?) {e e' : Entry}
  (he : e ∈ (ofText s).entries) (he' : e' ∈ (ofText s').entries) (hsmall : e'.small = e.small)

include hrest he he' hsmall

/-- **The logical texts differ only where case does not count.** -/
theorem getElem?_text_congr {offset : Nat} (ho : ¬e.node.Caseless offset) :
    e'.line.text[offset]? = e.line.text[offset]? := by
  have hfragments : e'.small.line.fragments = e.small.line.fragments := by
    rw [hsmall]
  have hlength : e'.line.text.length = e.line.text.length := by
    have := congrArg (fun e : Entry => e.line.text.length) hsmall
    simpa [Entry.small, LogicalLine.small] using this
  by_cases hlt : offset < e.line.text.length
  · obtain ⟨f, hf, column, hc, rfl⟩ := exists_fragment_of_lt he hlt
    have hf' : f ∈ e'.small.line.fragments := hfragments ▸ hf
    rw [← getElem?_text_of_mem he hf hc, ← getElem?_text_of_mem he' hf' hc]
    refine hrest _ ?_
    rintro ⟨e₂, he₂, f₂, hf₂, column₂, hc₂, heq, hcaseless⟩
    obtain ⟨rfl, hoffset⟩ := eq_of_offset_add_eq he he₂ hf hf₂ hc hc₂ heq
    rw [← hoffset] at hcaseless
    exact ho hcaseless
  · rw [List.getElem?_eq_none (by omega), List.getElem?_eq_none (by omega)]

variable {i i' : Instruction} (hi : e.node = .instruction i) (hi' : e'.node = .instruction i')

include hi hi'

omit hrest he he' in
theorem small_eq_of_entries : i'.small = i.small := by
  have hnode := congrArg Entry.node hsmall
  rw [Entry.small, Entry.small, hi, hi'] at hnode
  exact Node.instruction.inj hnode

/-- The arguments differ only on the keyword of a trigger. -/
theorem getElem?_arguments_congr {k : Nat}
    (hk : ∀ t ∈ i.trigger, ¬t.HasKeywordAt (i.argumentsStart + k)) :
    i'.arguments[k]? = i.arguments[k]? := by
  have hown := Instruction.parse_toCommand (parse_of_instruction he hi)
  have hown' := Instruction.parse_toCommand (parse_of_instruction he' hi')
  have hsame := small_eq_of_entries hsmall hi hi'
  have hstart := Instruction.argumentsStart_of_small hsame
  have hlength := Instruction.length_arguments_of_small hsame
  by_cases hlt : k < i.arguments.length
  · have hnot : ¬e.node.Caseless (i.argumentsStart + k) := by
      rw [hi]
      rintro (⟨-, -, hword⟩ | ⟨t, ht, hword⟩)
      · have := Command.wordEnd_lt_argumentsStart hown (List.ne_nil_of_length_pos (by omega))
        omega
      · exact hk t ht hword
    have htext := getElem?_text_congr hrest he he' hsmall hnot
    rw [Command.getElem?_arguments hown hlt, ← hstart,
      Command.getElem?_arguments hown' (by omega)] at htext
    exact htext
  · rw [List.getElem?_eq_none (by omega), List.getElem?_eq_none (by omega)]

/-- **The instructions of the texts are the same but for case.** -/
theorem sameButCase_of_entries : i.SameButCase i' := by
  have hsame := small_eq_of_entries hsmall hi hi'
  have hget := fun k => getElem?_arguments_congr hrest he he' hsmall hi hi' (k := k)
  refine ⟨hsame, ?_⟩
  by_cases htrigger : ∃ t ∈ i.trigger, t.known? ≠ none
  · right
    obtain ⟨t, ht, hknown⟩ := htrigger
    obtain ⟨honbuild, -, hp⟩ := Instruction.trigger_eq_some (parse_of_instruction he hi) ht
    obtain ⟨blanks, rest, hblanks, hsplit, hword⟩ := Command.exists_blanks hp
    -- behind the keyword of the trigger the arguments are the same
    have hend : t.wordEnd = i.argumentsStart + (blanks ++ t.word).length := by
      rw [Command.wordEnd, hword, List.length_append, Nat.add_assoc]
    have hdrop : i'.arguments.drop (blanks ++ t.word).length
        = i.arguments.drop (blanks ++ t.word).length := by
      refine List.ext_getElem? fun k => ?_
      rw [List.getElem?_drop, List.getElem?_drop]
      refine hget _ ?_
      rintro t' ht' ⟨-, -, hlt⟩
      obtain rfl := Option.some.inj (ht.symm.trans ht')
      omega
    have htake := congrArg (fun i : Instruction => i.arguments.take (blanks ++ t.word).length) hsame
    simp only [Instruction.small, Command.small, lowerCase, ← List.map_take] at htake
    rw [hsplit, List.drop_left] at hdrop
    rw [hsplit, List.take_left] at htake
    refine ⟨honbuild, blanks ++ t.word, i'.arguments.take (blanks ++ t.word).length, rest, hsplit,
      ?_, htake, ?_⟩
    · rw [← hdrop, List.take_append_drop]
    · rw [List.mem_append, not_or]
      exact ⟨fun hd => absurd (List.all_eq_true.mp hblanks _ hd) (by decide),
        Keyword.dollar_not_mem hknown⟩
  · left
    exact List.ext_getElem? fun k => hget k fun t ht hword => htrigger ⟨t, ht, hword.1⟩

end SameElsewhere

end Document

end Dockerfile
