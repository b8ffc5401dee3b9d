import Dockerfile.Instruction
import Dockerfile.Proofs.Syntax.Grammars

/-!
# Words of an instruction

The parts of an instruction stand one behind the other, and a blank at least lies between a word and
its arguments. A trigger lies inside the arguments, so its word does not touch the word in front.

* `InstructionForm.source_of_parse` — the parts put together are the text
* `Command.wordEnd_lt_argumentsStart` — the word ends in front of the arguments
* `Instruction.commandAt_eq_some_iff` — the command at an offset is the one whose word is there
-/

namespace Dockerfile

namespace InstructionForm

variable {s : List Char} {f : InstructionForm}

/-- The parts of an instruction, put together, are the text that it is read from. -/
theorem source_of_parse (h : parse s = .ok f) : f.source = s := by
  have hlead := leadingBlanks_append_skipBlanks s
  have hword := List.takeWhile_append_dropWhile (p := isKeywordChar) (l := skipBlanks s)
  have hgap := leadingBlanks_append_skipBlanks ((skipBlanks s).dropWhile isKeywordChar)
  obtain ⟨keyword, after, -, rfl, rfl, ⟨-, rfl⟩ | ⟨arguments, trail, hrun, -, rfl⟩⟩ :=
    parse_eq_ok_iff.mp h
  · rw [source, List.nil_append, List.nil_append, hword, hlead]
  · rw [source, argumentRun_append hrun, hgap, hword, hlead]

/-- Blanks are taken as a whole in front of the keyword. -/
theorem isAllBlank_lead (h : parse s = .ok f) : isAllBlank f.lead = true := by
  obtain ⟨keyword, after, -, -, -, ⟨-, rfl⟩ | ⟨arguments, trail, -, -, rfl⟩⟩ :=
    parse_eq_ok_iff.mp h <;> exact List.all_takeWhile

/-- There is a blank between a keyword and its arguments. -/
theorem gap_ne_nil (h : parse s = .ok f) (ha : f.arguments ≠ []) : f.gap ≠ [] := by
  obtain ⟨keyword, after, -, -, rfl, ⟨-, rfl⟩ | ⟨arguments, trail, hrun, -, rfl⟩⟩ :=
    parse_eq_ok_iff.mp h
  · exact absurd rfl ha
  · -- what follows the keyword is empty or starts with a blank
    refine leadingBlanks_ne_nil_iff.mpr ⟨?_, ?_⟩
    · intro hnil
      rw [hnil] at hrun
      cases hrun
    · intro c hc
      have hstop := List.head?_dropWhile_not isKeywordChar (skipBlanks s)
      rw [hc] at hstop
      simpa [isKeywordChar] using hstop

end InstructionForm

namespace Command

variable {offset : Nat} {s : List Char} {c : Command}

theorem exists_form (h : parse offset s = some c) : ∃ f, InstructionForm.parse s = .ok f ∧
    c = ⟨f.keyword, offset + f.keywordStart, f.arguments, offset + f.argumentsStart⟩ := by
  unfold parse at h
  split at h
  next f hf => exact ⟨f, hf, (Option.some.inj h).symm⟩
  next => simp at h

theorem le_wordStart (h : parse offset s = some c) : offset ≤ c.wordStart := by
  obtain ⟨f, -, rfl⟩ := exists_form h
  exact Nat.le_add_right _ _

/-- **The word ends in front of the arguments**, if there are any. -/
theorem wordEnd_lt_argumentsStart (h : parse offset s = some c) (ha : c.arguments ≠ []) :
    c.wordEnd < c.argumentsStart := by
  obtain ⟨f, hf, rfl⟩ := exists_form h
  have hgap := List.length_pos_iff.mpr (InstructionForm.gap_ne_nil hf ha)
  simp only [wordEnd, InstructionForm.keywordStart, InstructionForm.argumentsStart]
  omega

/-- The word ends inside the text. -/
theorem wordEnd_le (h : parse offset s = some c) : c.wordEnd ≤ offset + s.length := by
  obtain ⟨f, hf, rfl⟩ := exists_form h
  have hlength := congrArg List.length (InstructionForm.source_of_parse hf)
  simp only [InstructionForm.source, List.length_append] at hlength
  simp only [wordEnd, InstructionForm.keywordStart]
  omega

/-- The arguments stand at their offset. -/
theorem exists_append (h : parse offset s = some c) : ∃ front back,
    s = front ++ (c.arguments ++ back) ∧ c.argumentsStart = offset + front.length := by
  obtain ⟨f, hf, rfl⟩ := exists_form h
  refine ⟨f.lead ++ (f.keyword ++ f.gap), f.trail, ?_, ?_⟩
  · rw [← InstructionForm.source_of_parse hf, InstructionForm.source]
    simp only [List.append_assoc]
  · simp only [InstructionForm.argumentsStart, List.length_append, Nat.add_assoc]

/-- The arguments end inside the text. -/
theorem argumentsEnd_le (h : parse offset s = some c) : c.argumentsEnd ≤ offset + s.length := by
  obtain ⟨front, back, rfl, hstart⟩ := exists_append h
  rw [argumentsEnd, hstart, List.length_append, List.length_append]
  omega

theorem getElem?_arguments (h : parse 0 s = some c) {k : Nat} (hk : k < c.arguments.length) :
    s[c.argumentsStart + k]? = c.arguments[k]? := by
  obtain ⟨front, back, rfl, hstart⟩ := exists_append h
  rw [hstart, Nat.zero_add, List.getElem?_append_right (Nat.le_add_right _ _),
    Nat.add_sub_cancel_left, List.getElem?_append_left hk]

/-- The word stands behind blanks. -/
theorem exists_blanks (h : parse offset s = some c) : ∃ blanks rest, isAllBlank blanks = true
    ∧ s = blanks ++ c.word ++ rest ∧ c.wordStart = offset + blanks.length := by
  obtain ⟨f, hf, rfl⟩ := exists_form h
  refine ⟨f.lead, f.gap ++ (f.arguments ++ f.trail), InstructionForm.isAllBlank_lead hf, ?_, rfl⟩
  rw [List.append_assoc]
  exact (InstructionForm.source_of_parse hf).symm

theorem onWord_iff {offset : Nat} :
    c.onWord offset = true ↔ c.wordStart ≤ offset ∧ offset ≤ c.wordEnd := by
  simp [onWord]

end Command

namespace Instruction

variable {start : Nat} {s : List Char} {i : Instruction}

theorem parse_toCommand (h : parse start s = some i) :
    Command.parse start s = some i.toCommand := by
  obtain ⟨c, hc, rfl⟩ := Option.map_eq_some_iff.mp h
  exact hc

/-- Only `ONBUILD` has a trigger, and the trigger is read off its arguments. -/
theorem trigger_eq_some (h : parse start s = some i) {t : Command} (ht : i.trigger = some t) :
    i.known? = some .onbuild ∧ i.arguments ≠ []
      ∧ Command.parse i.argumentsStart i.arguments = some t := by
  obtain ⟨c, -, rfl⟩ := Option.map_eq_some_iff.mp h
  simp only at ht
  split at ht
  next hc => exact ⟨hc.1, hc.2, ht⟩
  next => simp at ht

/-- The word of a trigger does not touch the word in front of it. -/
theorem wordEnd_lt_trigger (h : parse start s = some i) {t : Command} (ht : i.trigger = some t) :
    i.wordEnd < t.wordStart := by
  obtain ⟨-, ha, hp⟩ := trigger_eq_some h ht
  exact Nat.lt_of_lt_of_le (Command.wordEnd_lt_argumentsStart (parse_toCommand h) ha)
    (Command.le_wordStart hp)

/-- The words of an instruction end inside the text. -/
theorem wordEnd_le_of_command (h : parse start s = some i) {c : Command}
    (hc : c = i.toCommand ∨ i.trigger = some c) : c.wordEnd ≤ start + s.length := by
  have hown := parse_toCommand h
  rcases hc with rfl | ht
  · exact Command.wordEnd_le hown
  · obtain ⟨-, -, hp⟩ := trigger_eq_some h ht
    exact Nat.le_trans (Command.wordEnd_le hp) (Command.argumentsEnd_le hown)

/-- **The command at an offset is the one, of its own or triggered, whose word is there.** -/
theorem commandAt_eq_some_iff (h : parse start s = some i) {offset : Nat} {c : Command} :
    i.commandAt offset = some c ↔ (c = i.toCommand ∨ i.trigger = some c)
      ∧ c.wordStart ≤ offset ∧ offset ≤ c.wordEnd := by
  rw [← Command.onWord_iff]
  unfold commandAt
  by_cases hown : i.onWord offset = true
  · rw [if_pos hown, Option.some.injEq]
    constructor
    · rintro rfl
      exact ⟨Or.inl rfl, hown⟩
    · rintro ⟨rfl | ht, hc⟩
      · rfl
      · have := wordEnd_lt_trigger h ht
        have := (Command.onWord_iff.mp hown).2
        have := (Command.onWord_iff.mp hc).1
        omega
  · rw [if_neg hown, Option.filter_eq_some_iff]
    constructor
    · rintro ⟨ht, hc⟩
      exact ⟨Or.inr ht, hc⟩
    · rintro ⟨rfl | ht, hc⟩
      · exact absurd hc hown
      · exact ⟨ht, hc⟩

end Instruction

end Dockerfile
