import Dockerfile.Instruction
import Dockerfile.Proofs.Line.LetterCase

/-!
# Instructions and directives in lower case

A logical text in lower case is read as the same instruction or directive in lower case: its parts
are runs of classes that do not tell capitals from small letters, and a keyword is known by its
capitals.

* `Instruction.parse_lowerCase`, `Header.feed_lowerCase` — reading commutes with lower case
-/

namespace Dockerfile

/-! ## Instructions -/

/-- The parts in lower case. -/
def InstructionForm.small (f : InstructionForm) : InstructionForm :=
  ⟨lowerCase f.lead, lowerCase f.keyword, lowerCase f.gap, lowerCase f.arguments,
    lowerCase f.trail⟩

/-- The command in lower case. -/
def Command.small (c : Command) : Command :=
  { c with word := lowerCase c.word, arguments := lowerCase c.arguments }

/-- The instruction and its trigger in lower case. -/
def Instruction.small (i : Instruction) : Instruction :=
  { i.toCommand.small with trigger := i.trigger.map Command.small }

theorem argumentRun_lowerCase (s : List Char) : argumentRun (lowerCase s)
    = (argumentRun s).map fun x => (lowerCase x.1, lowerCase x.2) := by
  have hlf : ∀ c : Char, (c.toLower != '\n') = (c != '\n') :=
    apply_toLower (f := fun c => c != '\n') (by decide)
  cases s with
  | nil => rfl
  | cons c s =>
    have hline := takeWhile_lowerCase (p := fun c => c != '\n') s hlf
    have hafter := dropWhile_lowerCase (p := fun c => c != '\n') s hlf
    rw [lowerCase_cons, argumentRun, argumentRun, isBlank_toLower]
    split
    · rfl
    simp only [hline, hafter, trimEnd_lowerCase, length_lowerCase]
    cases s.dropWhile (· != '\n') with
    | nil =>
      rw [lowerCase, lowerCase, ← List.map_drop]
      rfl
    | cons lineFeed after => simp

theorem InstructionForm.parse_lowerCase (s : List Char) :
    parse (lowerCase s) = (parse s).map small := by
  simp only [parse, skipBlanks_lowerCase, leadingBlanks_lowerCase,
    takeWhile_lowerCase _ isKeywordChar_toLower, dropWhile_lowerCase _ isKeywordChar_toLower,
    argumentRun_lowerCase, List.isEmpty_iff, lowerCase_eq_nil]
  split
  · rfl
  · cases argumentRun (skipBlanks ((skipBlanks s).dropWhile isKeywordChar)) with
    | none => rfl
    | some run =>
      simp only [Option.map_some, isAllBlank_lowerCase]
      split <;> rfl

namespace Command

theorem parse_lowerCase (offset : Nat) (s : List Char) :
    parse offset (lowerCase s) = (parse offset s).map small := by
  rw [parse, parse, InstructionForm.parse_lowerCase]
  cases InstructionForm.parse s with
  | error failure => rfl
  | ok f =>
    simp [Except.map, InstructionForm.small, InstructionForm.keywordStart,
      InstructionForm.argumentsStart, small]

theorem known?_small (c : Command) : c.small.known? = c.known? := ofWord?_lowerCase c.word

theorem wordEnd_small (c : Command) : c.small.wordEnd = c.wordEnd := by
  simp [wordEnd, small]

theorem onWord_small (c : Command) (offset : Int) : c.small.onWord offset = c.onWord offset := by
  rw [onWord, onWord, wordEnd_small]
  rfl

end Command

namespace Instruction

/-- **Reading an instruction** commutes with lower case. -/
theorem parse_lowerCase (offset : Nat) (s : List Char) :
    parse offset (lowerCase s) = (parse offset s).map small := by
  rw [parse, parse, Command.parse_lowerCase, Option.map_map, Option.map_map]
  congr 1
  funext c
  have harguments : (Command.small c).arguments ≠ [] ↔ c.arguments ≠ [] :=
    not_congr (lowerCase_eq_nil c.arguments)
  simp only [Function.comp_apply, small, c.known?_small, harguments]
  split
  · rw [← Command.parse_lowerCase]
    rfl
  · rfl

theorem commandAt_small (i : Instruction) (offset : Int) :
    i.small.commandAt offset = (i.commandAt offset).map Command.small := by
  have hword : i.small.onWord offset = i.onWord offset := i.toCommand.onWord_small offset
  rw [commandAt, commandAt, hword]
  split
  · rfl
  · show (i.trigger.map Command.small).filter _ = _
    cases i.trigger with
    | none => rfl
    | some t =>
      simp only [Option.map_some, Option.filter, t.onWord_small]
      split <;> rfl

theorem argumentsStart_of_small {i i' : Instruction} (h : i'.small = i.small) :
    i'.argumentsStart = i.argumentsStart := by
  have hstart := congrArg (fun i : Instruction => i.argumentsStart) h
  exact hstart

theorem length_arguments_of_small {i i' : Instruction} (h : i'.small = i.small) :
    i'.arguments.length = i.arguments.length := by
  have hlength := congrArg (fun i : Instruction => i.arguments.length) h
  simpa [small, Command.small] using hlength

theorem known?_small (i : Instruction) : i.small.known? = i.known? := i.toCommand.known?_small

end Instruction

/-! ## Directives -/

/-- The parts in lower case. -/
def DirectiveForm.small (f : DirectiveForm) : DirectiveForm :=
  ⟨lowerCase f.lead, lowerCase f.gap, lowerCase f.key, lowerCase f.value⟩

/-- The directive in lower case. -/
def Directive.small (d : Directive) : Directive :=
  { d with key := lowerCase d.key, value := lowerCase d.value }

namespace DirectiveForm

theorem parseBody_lowerCase (lead gap s : List Char) :
    parseBody (lowerCase lead) (lowerCase gap) (lowerCase s)
      = (parseBody lead gap s).map small := by
  cases s with
  | nil => rfl
  | cons c s =>
    rw [lowerCase_cons, parseBody, parseBody, isKeyStart_toLower]
    split
    · rw [← lowerCase_cons, takeWhile_lowerCase _ isKeyChar_toLower,
        dropWhile_lowerCase _ isKeyChar_toLower]
      rcases (c :: s).dropWhile isKeyChar with _ | ⟨d, value⟩
      · rfl
      by_cases hd : d = '='
      · subst hd
        have hlf : (lowerCase value).contains '\n' = value.contains '\n' := by
          rw [Bool.eq_iff_iff]
          simp [lowerCase, toLower_eq_iff (x := '\n') (by decide)]
        show (if (lowerCase value).contains '\n' then _ else _) = _
        rw [hlf]
        simp only
        split <;> rfl
      · have hd' : d.toLower ≠ '=' := fun h => hd ((toLower_eq_iff (by decide)).mp h)
        simp [hd, hd', ParseFailure.stuckAt, Except.map]
    · rfl

theorem parse_lowerCase (s : List Char) : parse (lowerCase s) = (parse s).map small := by
  rw [parse, parse, skipBlanks_lowerCase, leadingBlanks_lowerCase]
  rcases skipBlanks s with _ | ⟨c, rest⟩
  · rfl
  by_cases hc : c = '#'
  · subst hc
    rw [lowerCase_cons]
    show parseBody _ (leadingBlanks (lowerCase rest)) (skipBlanks (lowerCase rest)) = _
    rw [leadingBlanks_lowerCase, skipBlanks_lowerCase, parseBody_lowerCase]
    rfl
  · have hc' : c.toLower ≠ '#' := fun h => hc ((toLower_eq_iff (by decide)).mp h)
    simp [hc, hc', ParseFailure.stuckAt, Except.map]

end DirectiveForm

theorem Escape.ofText?_lowerCase (s : List Char) : ofText? (lowerCase s) = ofText? s := by
  have hchar : ∀ e : Escape, lowerCase s = e.text ↔ s = e.text := by
    intro e
    rw [text, lowerCase, List.map_eq_singleton_iff]
    simp [toLower_eq_iff e.isAlpha_char]
  simp only [ofText?, hchar]

namespace Directive

theorem parse_lowerCase (s : List Char) : parse (lowerCase s) = (parse s).map small := by
  rw [parse, parse, DirectiveForm.parse_lowerCase]
  cases DirectiveForm.parse s with
  | error failure => rfl
  | ok f => simp [Except.map, DirectiveForm.small, DirectiveForm.keyStart, small]

theorem recognized_small (d : Directive) : d.small.recognized = d.recognized := by
  simp [recognized, canonical, small]

theorem escape?_small (d : Directive) : d.small.escape? = d.escape? := by
  rw [escape?, escape?, recognized_small]
  simp only [small, trim_lowerCase, Escape.ofText?_lowerCase]

theorem onKey_small (d : Directive) (offset : Int) : d.small.onKey offset = d.onKey offset := by
  rw [onKey, onKey, keyEnd, small, length_lowerCase]
  rfl

end Directive

/-- The directives seen in lower case. -/
def Header.small (h : Header) : Header := { h with directives := h.directives.map Directive.small }

namespace Header

theorem escape_small (h : Header) : h.small.escape = h.escape := rfl

/-- **Watching the top of a document** commutes with lower case. -/
theorem feed_lowerCase (h : Header) (s : List Char) : h.small.feed (lowerCase s)
    = ((h.feed s).1.map Directive.small, (h.feed s).2.small) := by
  rw [feed, feed, isAllBlank_lowerCase, Directive.parse_lowerCase]
  show (if !h.isOpen || isAllBlank s then _ else _) = _
  split
  · rfl
  cases Directive.parse s with
  | none => rfl
  | some d =>
    simp only [Option.map_some, Option.filter, d.recognized_small]
    by_cases hd : d.recognized = true
    · simp [hd, small, d.escape?_small]
    · simp [hd, small]

end Header

end Dockerfile
