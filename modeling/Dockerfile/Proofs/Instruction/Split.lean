import Dockerfile.Proofs.Instruction.Arguments

/-!
# The split of an instruction

An instruction is split behind its first word. The word starts at the first character that is not a
blank and goes on up to the next blank; the arguments are the rest of the text without the blanks
at both ends. Where the two start and end is told by offsets, and a trigger, which is split off the
arguments in the same way, has its offsets in the same text.

* `InstructionForm.parse_eq_ok_iff_source` — reading undoes writing, and the other way round
* `Command.Splits` — the word and the arguments of a text, and where they are
* `Command.parse_eq_some_iff_splits` — a command is read iff it is what the text is split into
* `Instruction.read_exact` — the same with the trigger
-/

namespace Dockerfile

/-! ## Forms -/

namespace InstructionForm

/-- The parts hold what they are to hold, and blanks that need not be told from those at the end
are those at the end. -/
structure WellFormed (f : InstructionForm) : Prop where
  lead : isAllBlank f.lead = true
  keyword_ne_nil : f.keyword ≠ []
  isBlank_keyword : ∀ c ∈ f.keyword, isBlank c = false
  gap : isAllBlank f.gap = true
  gap_eq_nil_iff : f.gap = [] ↔ f.arguments = []
  start : AtWord f.arguments
  stop : EndsInWord f.arguments
  trail : isAllBlank f.trail = true

variable {f : InstructionForm} {s : List Char}

/-- Behind the keyword there is a blank, if there is anything. -/
theorem WellFormed.atGap (h : f.WellFormed) : AtGap (f.gap ++ (f.arguments ++ f.trail)) := by
  cases hgap : f.gap with
  | nil =>
    rw [h.gap_eq_nil_iff.mp hgap]
    exact AtGap.of_isAllBlank h.trail
  | cons b more =>
    intro c hc
    obtain rfl := Option.some.inj hc
    exact List.all_eq_true.mp h.gap b (hgap ▸ List.mem_cons_self ..)

theorem WellFormed.atWord (h : f.WellFormed) (rest : List Char) : AtWord (f.keyword ++ rest) := by
  obtain ⟨c, more, hkeyword⟩ := List.exists_cons_of_ne_nil h.keyword_ne_nil
  rw [hkeyword]
  exact atWord_cons (h.isBlank_keyword c (hkeyword ▸ List.mem_cons_self ..))

/-- **A form that is written is read back**, unless there is a line feed in its arguments. -/
theorem parse_source (h : f.WellFormed) (hlf : '\n' ∉ f.arguments) : parse f.source = .ok f := by
  obtain ⟨hlead, hbody⟩ :=
    leadingBlanks_append h.lead (h.atWord (f.gap ++ (f.arguments ++ f.trail)))
  obtain ⟨hkeyword, hafter⟩ := takeWhile_append_of_head
    (show ∀ c ∈ f.keyword, isKeywordChar c = true by simpa [isKeywordChar] using h.isBlank_keyword)
    (show ∀ c ∈ (f.gap ++ (f.arguments ++ f.trail)).head?, isKeywordChar c = false by
      simpa [isKeywordChar, AtGap] using h.atGap)
  refine parse_eq_ok_iff.mpr ⟨f.keyword, f.gap ++ (f.arguments ++ f.trail), h.keyword_ne_nil,
    ?_, ?_, ?_⟩
  · rw [source, hbody, hkeyword]
  · rw [source, hbody, hafter]
  · rw [source, hlead]
    by_cases hnil : f.arguments = []
    · have hgap := h.gap_eq_nil_iff.mpr hnil
      refine Or.inl ⟨?_, ?_⟩
      · rw [hgap, hnil, List.nil_append, List.nil_append, isAllBlank_iff_skipBlanks.mp h.trail]
        rfl
      · rw [hgap, hnil]
        cases f
        simp_all
    · have hstart : AtWord (f.arguments ++ f.trail) := by
        obtain ⟨c, more, hcons⟩ := List.exists_cons_of_ne_nil hnil
        rw [hcons]
        exact atWord_cons (h.start c (hcons ▸ rfl))
      obtain ⟨hgap, hrest⟩ := leadingBlanks_append h.gap hstart
      refine Or.inr ⟨f.arguments, f.trail, ?_, h.trail, by rw [hgap]⟩
      rw [hrest, argumentRun_append_blanks hnil h.start h.stop h.trail hlf]

theorem wellFormed_of_parse (h : parse s = .ok f) : f.WellFormed := by
  obtain ⟨keyword, after, hne, rfl, rfl, hcases⟩ := parse_eq_ok_iff.mp h
  have hkeyword : ∀ c ∈ (skipBlanks s).takeWhile isKeywordChar, isBlank c = false := fun c hc => by
    simpa [isKeywordChar] using List.mem_takeWhile_imp hc
  rcases hcases with ⟨hnone, rfl⟩ | ⟨arguments, trail, hrun, htrail, rfl⟩
  · have hblank := isAllBlank_iff_skipBlanks.mpr
      ((argumentRun_eq_none_iff (atWord_skipBlanks _)).mp hnone)
    exact ⟨List.all_takeWhile, hne, hkeyword, rfl, by simp, by simp [AtWord], by simp [EndsInWord],
      hblank⟩
  · obtain ⟨hstart, hstop⟩ := ends_of_argumentRun hrun
    have hnil := argumentRun_ne_nil hrun
    refine ⟨List.all_takeWhile, hne, hkeyword, List.all_takeWhile, ?_, hstart, hstop, htrail⟩
    exact ⟨fun hgap => absurd hgap (gap_ne_nil h hnil), fun h => absurd h hnil⟩

/-- **Reading undoes writing, and writing undoes reading.** -/
theorem parse_eq_ok_iff_source (hlf : '\n' ∉ s) :
    parse s = .ok f ↔ f.WellFormed ∧ f.source = s := by
  constructor
  · intro h
    exact ⟨wellFormed_of_parse h, source_of_parse h⟩
  · rintro ⟨hf, rfl⟩
    refine parse_source hf fun hmem => hlf ?_
    simp [source, hmem]

end InstructionForm

/-! ## Offsets -/

/-- Two neighbouring parts of a text. -/
theorem extract_append_drop (s : List Char) {start stop : Nat} (h : start ≤ stop) :
    s.extract start stop ++ s.drop stop = s.drop start := by
  rw [List.extract_eq_take_drop, ← Nat.add_sub_cancel' h, ← List.drop_drop,
    Nat.add_sub_cancel_left, List.take_append_drop]

/-- A part that is not empty ends inside the text. -/
theorem le_length_of_extract {s part : List Char} {start : Nat}
    (h : s.extract start (start + part.length) = part) (hne : part ≠ []) :
    start + part.length ≤ s.length := by
  have hlength := congrArg List.length h
  have hpos := List.length_pos_iff.mpr hne
  simp only [List.extract_eq_take_drop, List.length_take, List.length_drop] at hlength
  omega

theorem length_extract_of_le {s : List Char} {start n : Nat} (h : start + n ≤ s.length) :
    (s.extract start (start + n)).length = n := by
  rw [List.extract_eq_take_drop, List.length_take, List.length_drop]
  omega

/-- A part of a part of a text. -/
theorem extract_extract (s : List Char) {start stop inner outer : Nat} (h : start + outer ≤ stop) :
    (s.extract start stop).extract inner outer = s.extract (start + inner) (start + outer) := by
  simp only [List.extract_eq_take_drop, List.drop_take, List.take_take, List.drop_drop]
  congr 1
  omega

namespace Command

/-- The command is what a text that starts at `offset` is split into, and its offsets are where the
parts are: the word from the first character that is not a blank up to the next blank, and what is
left behind it without the blanks at both ends. -/
structure Splits (c : Command) (offset : Nat) (s : List Char) : Prop where
  le_wordStart : offset ≤ c.wordStart
  lead : isAllBlank (s.take (c.wordStart - offset)) = true
  word : s.extract (c.wordStart - offset) (c.wordEnd - offset) = c.word
  word_ne_nil : c.word ≠ []
  isBlank_word : ∀ d ∈ c.word, isBlank d = false
  atGap : AtGap (s.drop (c.wordEnd - offset))
  wordEnd_le : c.wordEnd ≤ c.argumentsStart
  gap : isAllBlank (s.extract (c.wordEnd - offset) (c.argumentsStart - offset)) = true
  arguments : s.extract (c.argumentsStart - offset) (c.argumentsEnd - offset) = c.arguments
  start : AtWord c.arguments
  stop : EndsInWord c.arguments
  argumentsStart_eq : c.arguments = [] → c.argumentsStart = c.wordEnd
  trail : isAllBlank (s.drop (c.argumentsEnd - offset)) = true

variable {offset : Nat} {s : List Char} {c : Command}

/-- The offsets of the parts of a form are where the parts are. -/
theorem splits_of_wellFormed {f : InstructionForm} (hf : f.WellFormed) (offset : Nat) :
    Splits ⟨f.keyword, offset + f.keywordStart, f.arguments, offset + f.argumentsStart⟩ offset
      f.source := by
  have hwordEnd : offset + f.lead.length + f.keyword.length - offset
      = f.lead.length + f.keyword.length := by omega
  have hargumentsEnd : offset + f.argumentsStart + f.arguments.length - offset
      = f.argumentsStart + f.arguments.length := by omega
  have hbehind : f.source = (f.lead ++ f.keyword) ++ (f.gap ++ (f.arguments ++ f.trail)) := by
    simp only [InstructionForm.source, List.append_assoc]
  have hfront : f.source = (f.lead ++ (f.keyword ++ f.gap)) ++ (f.arguments ++ f.trail) := by
    simp only [InstructionForm.source, List.append_assoc]
  have hlength : f.argumentsStart = (f.lead ++ (f.keyword ++ f.gap)).length := by
    simp only [InstructionForm.argumentsStart, List.length_append, Nat.add_assoc]
  constructor <;> simp only [wordEnd, argumentsEnd, InstructionForm.keywordStart,
    Nat.add_sub_cancel_left, hwordEnd, hargumentsEnd]
  case le_wordStart => exact Nat.le_add_right _ _
  case lead =>
    rw [InstructionForm.source, List.take_left]
    exact hf.lead
  case word => exact extract_of_append rfl rfl rfl
  case word_ne_nil => exact hf.keyword_ne_nil
  case isBlank_word => exact hf.isBlank_keyword
  case atGap =>
    rw [hbehind, ← List.length_append, List.drop_left]
    exact hf.atGap
  case wordEnd_le =>
    rw [InstructionForm.argumentsStart]
    omega
  case gap =>
    rw [InstructionForm.argumentsStart, extract_of_append hbehind List.length_append.symm rfl]
    exact hf.gap
  case arguments => exact extract_of_append hfront hlength rfl
  case start => exact hf.start
  case stop => exact hf.stop
  case argumentsStart_eq =>
    intro hnil
    rw [InstructionForm.argumentsStart, hf.gap_eq_nil_iff.mpr hnil]
    simp only [List.length_nil]
    omega
  case trail =>
    rw [hfront, ← List.append_assoc, hlength, ← List.length_append, List.drop_left]
    exact hf.trail

/-- The parts that a text is split into make up a form. -/
theorem Splits.exists_form (h : c.Splits offset s) : ∃ f : InstructionForm, f.WellFormed
    ∧ f.source = s
    ∧ c = ⟨f.keyword, offset + f.keywordStart, f.arguments, offset + f.argumentsStart⟩ := by
  obtain ⟨word, wordStart, arguments, argumentsStart⟩ := c
  obtain ⟨hstart, hlead, hword, hne, hwhole, hatGap, hle, hgap, harguments, hfirst, hlast, hnone,
    htrail⟩ := h
  simp only [wordEnd, argumentsEnd] at *
  obtain ⟨a, rfl⟩ := Nat.exists_eq_add_of_le hstart
  obtain ⟨g, rfl⟩ := Nat.exists_eq_add_of_le hle
  have hwordEnd : offset + a + word.length - offset = a + word.length := by omega
  have hargumentsStart : offset + a + word.length + g - offset = a + word.length + g := by omega
  have hargumentsEnd : offset + a + word.length + g + arguments.length - offset
      = a + word.length + g + arguments.length := by omega
  rw [Nat.add_sub_cancel_left] at hlead hword
  rw [hwordEnd] at hword hatGap hgap
  rw [hargumentsStart] at hgap harguments
  rw [hargumentsEnd] at harguments htrail
  have ha := le_length_of_extract hword hne
  have hinside : a + word.length + g ≤ s.length := by
    by_cases hnil : arguments = []
    · have := hnone hnil
      omega
    · have := le_length_of_extract harguments hnil
      omega
  have hg := length_extract_of_le hinside
  have hfront := extract_append_drop s (Nat.le_add_right a word.length)
  have hbehind := extract_append_drop s (Nat.le_add_right (a + word.length) g)
  have hrest := extract_append_drop s (Nat.le_add_right (a + word.length + g) arguments.length)
  rw [hword] at hfront
  rw [harguments] at hrest
  have hnil : s.extract (a + word.length) (a + word.length + g) = [] ↔ arguments = [] := by
    constructor
    · intro hnil
      rw [hnil, List.nil_append] at hbehind
      rw [← hbehind, ← hrest] at hatGap
      exact eq_nil_of_atGap hatGap hfirst
    · intro hnil
      have := hnone hnil
      exact List.length_eq_zero_iff.mp (by omega)
  refine ⟨⟨s.take a, word, s.extract (a + word.length) (a + word.length + g), arguments,
    s.drop (a + word.length + g + arguments.length)⟩,
    ⟨hlead, hne, hwhole, hgap, hnil, hfirst, hlast, htrail⟩, ?_, ?_⟩
  · rw [InstructionForm.source, hrest, hbehind, hfront, List.take_append_drop]
  · have hlead : (s.take a).length = a := List.length_take_of_le (by omega)
    rw [InstructionForm.keywordStart, InstructionForm.argumentsStart, hg, hlead]
    simp only [Nat.add_assoc]

/-- **A command is read from a text iff it is what the text is split into.** -/
theorem parse_eq_some_iff_splits (hlf : '\n' ∉ s) :
    parse offset s = some c ↔ c.Splits offset s := by
  constructor
  · intro h
    obtain ⟨f, hf, rfl⟩ := exists_form h
    obtain ⟨hwhole, rfl⟩ := (InstructionForm.parse_eq_ok_iff_source hlf).mp hf
    exact splits_of_wellFormed hwhole offset
  · intro h
    obtain ⟨f, hwhole, hsource, rfl⟩ := h.exists_form
    rw [parse, (InstructionForm.parse_eq_ok_iff_source hlf).mpr ⟨hwhole, hsource⟩]

/-- **A word and its arguments, with blanks in between, are read back.** -/
theorem parse_append (offset : Nat) {word gap arguments : List Char} (hword : word ≠ [])
    (hwhole : ∀ d ∈ word, isBlank d = false) (hgap : gap ≠ []) (hblank : isAllBlank gap = true)
    (hne : arguments ≠ []) (hstart : AtWord arguments) (hend : EndsInWord arguments)
    (hlf : '\n' ∉ arguments) : parse offset (word ++ (gap ++ arguments))
      = some ⟨word, offset, arguments, offset + (word.length + gap.length)⟩ := by
  have hform : InstructionForm.WellFormed ⟨[], word, gap, arguments, []⟩ :=
    ⟨rfl, hword, hwhole, hblank, iff_of_false hgap hne, hstart, hend, rfl⟩
  have hparse := InstructionForm.parse_source hform hlf
  rw [InstructionForm.source, List.nil_append, List.append_nil] at hparse
  rw [parse, hparse]
  simp [InstructionForm.keywordStart, InstructionForm.argumentsStart]

/-- **Nothing is read from a text of blanks**, and from nothing else. -/
theorem parse_eq_none_iff (hlf : '\n' ∉ s) : parse offset s = none ↔ isAllBlank s = true := by
  constructor
  · intro h
    by_contra hb
    obtain ⟨f, hf⟩ := InstructionForm.exists_parse (by simpa using hb) hlf
    rw [parse, hf] at h
    cases h
  · intro hb
    rw [Option.eq_none_iff_forall_ne_some]
    intro c hc
    have hsplits := (parse_eq_some_iff_splits hlf).mp hc
    obtain ⟨d, hd⟩ := List.exists_mem_of_ne_nil _ hsplits.word_ne_nil
    have hmem : d ∈ s := by
      rw [← hsplits.word, List.extract_eq_take_drop] at hd
      exact List.mem_of_mem_drop (List.mem_of_mem_take hd)
    exact Bool.false_ne_true
      ((hsplits.isBlank_word d hd).symm.trans (List.all_eq_true.mp hb d hmem))

theorem Splits.lineFeed_notMem (h : c.Splits offset s) (hlf : '\n' ∉ s) : '\n' ∉ c.arguments := by
  rw [← h.arguments, List.extract_eq_take_drop]
  exact fun hmem => hlf (List.mem_of_mem_drop (List.mem_of_mem_take hmem))

/-- A part of the arguments, by the offsets of the text. -/
theorem Splits.extract_arguments (h : c.Splits offset s) {start stop : Nat}
    (hstart : c.argumentsStart ≤ start) (hle : start ≤ stop) (hstop : stop ≤ c.argumentsEnd) :
    c.arguments.extract (start - c.argumentsStart) (stop - c.argumentsStart)
      = s.extract (start - offset) (stop - offset) := by
  have hoffset : offset ≤ c.argumentsStart :=
    Nat.le_trans (Nat.le_trans h.le_wordStart (Nat.le_add_right _ _)) h.wordEnd_le
  calc c.arguments.extract (start - c.argumentsStart) (stop - c.argumentsStart)
      = (s.extract (c.argumentsStart - offset) (c.argumentsEnd - offset)).extract
          (start - c.argumentsStart) (stop - c.argumentsStart) := by rw [h.arguments]
    _ = s.extract (start - offset) (stop - offset) := by
      rw [extract_extract s (by omega)]
      congr 1 <;> omega

/-- What the arguments of a command are split into is, by the same offsets, in the text of the
command. -/
theorem Splits.extract_trigger {t : Command} (h : c.Splits offset s) (hlf : '\n' ∉ s)
    (ht : t.Splits c.argumentsStart c.arguments) :
    s.extract (t.wordStart - offset) (t.wordEnd - offset) = t.word
      ∧ s.extract (t.argumentsStart - offset) (t.argumentsEnd - offset) = t.arguments := by
  have hparse := (parse_eq_some_iff_splits (h.lineFeed_notMem hlf)).mpr ht
  have hword : t.wordStart ≤ t.wordEnd := Nat.le_add_right _ _
  have harguments : t.argumentsStart ≤ t.argumentsEnd := Nat.le_add_right _ _
  have hgap := ht.wordEnd_le
  have hstart := ht.le_wordStart
  constructor
  · rw [← h.extract_arguments hstart hword (Command.wordEnd_le hparse), ht.word]
  · rw [← h.extract_arguments (by omega) harguments (Command.argumentsEnd_le hparse), ht.arguments]

theorem known?_eq_some_iff {k : Keyword} : c.known? = some k ↔ c.keyword = k.name := by
  rw [known?, Keyword.ofWord?, keyword]
  constructor
  · exact fun h => (Keyword.name_of_ofName? h).symm
  · intro h
    rw [h, Keyword.ofName?_name]

end Command

/-! ## Triggers -/

namespace Instruction

/-- Reads a text that starts at `offset`, with its trigger if `nest`. -/
def read (nest : Bool) (offset : Nat) (s : List Char) : Option Instruction :=
  if nest then parse offset s else (Command.parse offset s).map (⟨·, none⟩)

variable {nest : Bool} {offset : Nat} {s : List Char} {i : Instruction}

theorem read_eq_none_iff : read nest offset s = none ↔ Command.parse offset s = none := by
  cases nest <;> simp [read, parse]

theorem read_toCommand (h : read nest offset s = some i) :
    Command.parse offset s = some i.toCommand := by
  cases nest with
  | true => exact parse_toCommand h
  | false =>
    obtain ⟨c, hc, rfl⟩ := Option.map_eq_some_iff.mp h
    exact hc

theorem read_trigger (h : read nest offset s = some i) {t : Command} : i.trigger = some t
    ↔ nest = true ∧ i.known? = some .onbuild ∧ i.arguments ≠ []
      ∧ Command.parse i.argumentsStart i.arguments = some t := by
  cases nest with
  | false =>
    obtain ⟨c, -, rfl⟩ := Option.map_eq_some_iff.mp h
    simp
  | true =>
    obtain ⟨c, -, rfl⟩ := Option.map_eq_some_iff.mp h
    simp only [true_and, Option.ite_none_right_eq_some, and_assoc]

/-- **A text is split exactly, and so is a trigger.** Unless it is blank, it is read as what it is
split into, wherever it starts. There is a trigger if one is asked for, the word is `ONBUILD` in
capitals and there are arguments; the trigger is what the arguments are split into, its offsets are
those of the text, and no offset is on both words. -/
theorem read_exact (nest : Bool) (offset : Nat) {s : List Char} (hlf : '\n' ∉ s) :
    (read nest offset s = none ↔ isAllBlank s = true) ∧
      ∀ i, read nest offset s = some i →
        (∀ c : Command, c.Splits offset s ↔ c = i.toCommand) ∧
        (i.trigger.isSome = true
          ↔ nest = true ∧ i.keyword = "ONBUILD".toList ∧ i.arguments ≠ []) ∧
        ∀ t, i.trigger = some t →
          read false i.argumentsStart i.arguments = some ⟨t, none⟩ ∧
          t.Splits i.argumentsStart i.arguments ∧
          s.extract (t.wordStart - offset) (t.wordEnd - offset) = t.word ∧
          s.extract (t.argumentsStart - offset) (t.argumentsEnd - offset) = t.arguments ∧
          i.wordEnd < t.wordStart ∧
          ∀ o : Int, ¬(i.onWord o = true ∧ t.onWord o = true) := by
  refine ⟨read_eq_none_iff.trans (Command.parse_eq_none_iff hlf), ?_⟩
  intro i h
  have hown := read_toCommand h
  have hsplits := (Command.parse_eq_some_iff_splits hlf).mp hown
  have hlf' := hsplits.lineFeed_notMem hlf
  refine ⟨?_, ?_, ?_⟩
  · intro c
    rw [← Command.parse_eq_some_iff_splits hlf, hown, Option.some.injEq, eq_comm]
  · rw [Option.isSome_iff_exists]
    constructor
    · rintro ⟨t, ht⟩
      obtain ⟨hnest, hknown, hne, -⟩ := (read_trigger h).mp ht
      exact ⟨hnest, Command.known?_eq_some_iff.mp hknown, hne⟩
    · rintro ⟨hnest, hkeyword, hne⟩
      have hblank : isAllBlank i.arguments ≠ true := by
        -- arguments do not start with a blank
        intro hb
        have hgap : AtGap (i.arguments ++ []) := by
          rw [List.append_nil]
          exact .of_isAllBlank hb
        exact hne (eq_nil_of_atGap hgap hsplits.start)
      obtain ⟨t, ht⟩ := Option.ne_none_iff_exists'.mp
        (mt (Command.parse_eq_none_iff hlf').mp hblank)
      exact ⟨t, (read_trigger h).mpr ⟨hnest, Command.known?_eq_some_iff.mpr hkeyword, hne, ht⟩⟩
  · intro t ht
    obtain ⟨-, -, hne, hparse⟩ := (read_trigger h).mp ht
    have hlt : i.wordEnd < t.wordStart :=
      Nat.lt_of_lt_of_le (Command.wordEnd_lt_argumentsStart hown hne) (Command.le_wordStart hparse)
    have htrigger := (Command.parse_eq_some_iff_splits hlf').mp hparse
    obtain ⟨hword, harguments⟩ := hsplits.extract_trigger hlf htrigger
    refine ⟨?_, htrigger, hword, harguments, hlt, ?_⟩
    · rw [read, if_neg Bool.false_ne_true, hparse, Option.map_some]
    · rintro o ⟨hi, ht⟩
      simp only [Command.onWord, Bool.and_eq_true, decide_eq_true_eq] at hi ht
      omega

/-- A word that is `ONBUILD` only in capitals, and a trigger whose capitals are longer than its
word. -/
theorem read_exact_longer_capitals :
    ∃ (i : Instruction) (t : Command), let s := " \tonbuıld \tß  x y ".toList
      '\n' ∉ s ∧ read true 5 s = some i ∧ i.trigger = some t ∧
      (i.wordStart, i.wordEnd, i.argumentsStart, i.argumentsEnd) = (7, 14, 16, 22) ∧
      (t.wordStart, t.wordEnd, t.argumentsStart, t.argumentsEnd) = (16, 17, 19, 22) ∧
      t.keyword.length = 2 ∧ s.extract 11 12 = t.word ∧ s.extract 14 17 = t.arguments ∧
      (∀ c : Command, c.Splits 5 s ↔ c = i.toCommand) ∧
      ∀ o : Int, ¬(i.onWord o = true ∧ t.onWord o = true) := by
  let s := " \tonbuıld \tß  x y ".toList
  have hlf : '\n' ∉ s := by decide +kernel
  obtain ⟨-, hread⟩ := read_exact true 5 hlf
  let t : Command := ⟨"ß".toList, 16, "x y".toList, 19⟩
  let i : Instruction := ⟨⟨"onbuıld".toList, 7, "ß  x y".toList, 16⟩, some t⟩
  have hi : read true 5 s = some i := by decide +kernel
  obtain ⟨hsplits, -, htrigger⟩ := hread i hi
  obtain ⟨-, -, hword, harguments, -, hdisjoint⟩ := htrigger t rfl
  exact ⟨i, t, hlf, hi, rfl, by decide +kernel, by decide +kernel, by decide +kernel, hword,
    harguments, hsplits, hdisjoint⟩

end Instruction

end Dockerfile
