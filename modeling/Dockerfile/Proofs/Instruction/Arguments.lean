import Dockerfile.Proofs.Instruction.Words

/-!
# The arguments of a command

Arguments have no blanks at their ends. Every text like that, unless a line feed breaks it, is taken
as a whole where arguments are read.

* `InstructionForm.exists_parse` — which texts are instructions
* `Command.arguments_ends` — what the ends of arguments look like
-/

namespace Dockerfile

/-- A blank does not stand at the end of the text. -/
def EndsInWord (s : List Char) : Prop := ∀ c ∈ s.getLast?, isBlank c = false

/-! ## Trimming -/

/-- Blanks at the end of a text that ends in a word are none. -/
theorem eq_nil_of_endsInWord {s blanks : List Char} (h : EndsInWord (s ++ blanks))
    (hb : isAllBlank blanks = true) : blanks = [] := by
  by_contra hne
  obtain ⟨c, hc⟩ := List.getLast?_isSome.mpr hne |> Option.isSome_iff_exists.mp
  have hblank := List.all_eq_true.mp hb c (List.mem_of_getLast? hc)
  have hlast : (s ++ blanks).getLast? = some c := by
    rw [List.getLast?_append, hc]
    rfl
  rw [h c hlast] at hblank
  exact Bool.false_ne_true hblank

theorem trimEnd_eq_self {s : List Char} (h : EndsInWord s) : trimEnd s = s := by
  obtain ⟨blanks, hb, happend⟩ := trimEnd_append_blanks s
  rw [← happend] at h
  rw [eq_nil_of_endsInWord h hb, List.append_nil] at happend
  exact happend

theorem endsInWord_trimEnd (s : List Char) : EndsInWord (trimEnd s) := by
  induction s with
  | nil => intro c hc; cases hc
  | cons d s ih =>
    rw [trimEnd]
    split
    next =>
      by_cases hd : isBlank d = true
      · rw [if_pos hd]
        intro c hc
        cases hc
      · rw [if_neg hd]
        intro c hc
        obtain rfl := Option.some.inj hc
        simpa using hd
    next kept hkept =>
      intro c hc
      rw [List.getLast?_cons_of_ne_nil (fun hnil => hkept hnil)] at hc
      exact ih c hc

/-- Blanks at the end are taken off as a whole. -/
theorem trimEnd_append {s blanks : List Char} (hb : isAllBlank blanks = true) :
    trimEnd (s ++ blanks) = trimEnd s := by
  have hblanks : trimEnd blanks = [] := by
    obtain ⟨more, -, happend⟩ := trimEnd_append_blanks blanks
    refine eq_nil_of_endsInWord (s := []) (endsInWord_trimEnd blanks) ?_
    exact List.all_eq_true.mpr fun c hc =>
      List.all_eq_true.mp hb c (happend ▸ List.mem_append_left _ hc)
  induction s with
  | nil => exact hblanks
  | cons c s ih => rw [List.cons_append, trimEnd, trimEnd, ih]

/-! ## Runs of arguments -/

/-- A run of arguments starts and ends with non-blank characters. -/
theorem ends_of_argumentRun {s run rest : List Char} (h : argumentRun s = some (run, rest)) :
    AtWord run ∧ EndsInWord run := by
  cases s with
  | nil => cases h
  | cons c s =>
    by_cases hc : isBlank c = true
    · rw [argumentRun, if_pos hc] at h
      cases h
    have hc : isBlank c = false := by simpa using hc
    rw [argumentRun, hc, if_neg Bool.false_ne_true] at h
    simp only at h
    split at h
    next lineFeed after hdrop =>
      obtain ⟨rfl, -⟩ := Prod.mk.inj (Option.some.inj h)
      have hlf : lineFeed = '\n' := by
        have := List.head?_dropWhile_not (· != '\n') s
        simpa [hdrop] using this
      refine ⟨atWord_cons hc, ?_⟩
      intro d hd
      rw [List.getLast?_append, hlf] at hd
      obtain rfl := Option.some.inj hd
      decide
    next =>
      obtain ⟨rfl, -⟩ := Prod.mk.inj (Option.some.inj h)
      refine ⟨atWord_cons hc, ?_⟩
      intro d hd
      by_cases hnil : trimEnd (s.takeWhile (· != '\n')) = []
      · rw [hnil] at hd
        obtain rfl := Option.some.inj hd
        exact hc
      · rw [List.getLast?_cons_of_ne_nil hnil] at hd
        exact endsInWord_trimEnd _ d hd

/-- A text with words at its ends is one run, unless there is a line feed in it. It ends in front of
blanks that end the text. -/
theorem argumentRun_append_blanks {s blanks : List Char} (hne : s ≠ []) (hstart : AtWord s)
    (hend : EndsInWord s) (hb : isAllBlank blanks = true) (hlf : '\n' ∉ s) :
    argumentRun (s ++ blanks) = some (s, blanks) := by
  obtain ⟨c, tail, rfl⟩ := List.exists_cons_of_ne_nil hne
  have hline : ∀ d ∈ tail ++ blanks, (d != '\n') = true := by
    intro d hd
    refine bne_iff_ne.mpr ?_
    rintro rfl
    rcases List.mem_append.mp hd with hd | hd
    · exact hlf (List.mem_cons_of_mem _ hd)
    · exact absurd (List.all_eq_true.mp hb _ hd) (by decide)
  have htail : EndsInWord tail := by
    intro d hd
    have hnil : tail ≠ [] := by
      rintro rfl
      cases hd
    exact hend d (by rw [List.getLast?_cons_of_ne_nil hnil]; exact hd)
  rw [List.cons_append, argumentRun, hstart c rfl, if_neg Bool.false_ne_true]
  simp only [List.takeWhile_eq_self_iff.mpr hline, List.dropWhile_eq_nil_iff.mpr hline,
    trimEnd_append hb, trimEnd_eq_self htail, List.drop_left]

theorem argumentRun_eq_self {s : List Char} (hne : s ≠ []) (hstart : AtWord s)
    (hend : EndsInWord s) (hlf : '\n' ∉ s) : argumentRun s = some (s, []) := by
  have hrun := argumentRun_append_blanks hne hstart hend (show isAllBlank [] = true from rfl) hlf
  rwa [List.append_nil] at hrun

/-- Without a line feed, there are only blanks behind a run of arguments. -/
theorem isAllBlank_of_argumentRun {s run rest : List Char}
    (h : argumentRun s = some (run, rest)) (hlf : '\n' ∉ s) : isAllBlank rest = true := by
  cases s with
  | nil => cases h
  | cons c s =>
    have hline : ∀ d ∈ s, (d != '\n') = true := by
      intro d hd
      exact bne_iff_ne.mpr fun heq => hlf (heq ▸ List.mem_cons_of_mem _ hd)
    by_cases hc : isBlank c = true
    · rw [argumentRun, if_pos hc] at h
      cases h
    · rw [argumentRun, if_neg hc] at h
      simp only [List.takeWhile_eq_self_iff.mpr hline, List.dropWhile_eq_nil_iff.mpr hline] at h
      obtain ⟨-, rfl⟩ := Prod.mk.inj (Option.some.inj h)
      obtain ⟨blanks, hb, happend⟩ := trimEnd_append_blanks s
      have hdrop : s.drop (trimEnd s).length = blanks := by
        rw [List.append_cancel_left ((drop_trimEnd s).trans happend.symm)]
      rw [hdrop]
      exact hb

/-! ## Texts that are instructions -/

/-- **Every text is an instruction** unless it is blank or has a line feed inside. -/
theorem InstructionForm.exists_parse {s : List Char} (hb : isAllBlank s = false)
    (hlf : '\n' ∉ s) : ∃ f, parse s = .ok f := by
  have hkeyword : (skipBlanks s).takeWhile isKeywordChar ≠ [] := by
    cases hskip : skipBlanks s with
    | nil =>
      rw [isAllBlank_iff_skipBlanks.mpr hskip] at hb
      cases hb
    | cons c rest =>
      have hc : isKeywordChar c = true := by
        simp [isKeywordChar, atWord_skipBlanks s c (by rw [hskip]; rfl)]
      rw [List.takeWhile_cons_of_pos hc]
      exact List.cons_ne_nil _ _
  cases hrun : argumentRun (skipBlanks ((skipBlanks s).dropWhile isKeywordChar)) with
  | none => exact ⟨_, parse_eq_ok_iff.mpr ⟨_, _, hkeyword, rfl, rfl, Or.inl ⟨hrun, rfl⟩⟩⟩
  | some run =>
    have hsuffix : skipBlanks ((skipBlanks s).dropWhile isKeywordChar) <:+ s :=
      ((List.dropWhile_suffix _).trans (List.dropWhile_suffix _)).trans (List.dropWhile_suffix _)
    have htrail := isAllBlank_of_argumentRun hrun fun hmem => hlf (hsuffix.subset hmem)
    exact ⟨_, parse_eq_ok_iff.mpr
      ⟨_, _, hkeyword, rfl, rfl, Or.inr ⟨run.1, run.2, hrun, htrail, rfl⟩⟩⟩

theorem Instruction.exists_parse (start : Nat) {s : List Char} (hb : isAllBlank s = false)
    (hlf : '\n' ∉ s) : ∃ i, parse start s = some i := by
  obtain ⟨f, hf⟩ := InstructionForm.exists_parse hb hlf
  rw [parse, Command.parse, hf]
  exact ⟨_, rfl⟩

namespace Command

variable {offset : Nat} {s : List Char} {c : Command}

/-- **Arguments have no blanks at their ends.** -/
theorem arguments_ends (h : parse offset s = some c) :
    AtWord c.arguments ∧ EndsInWord c.arguments := by
  obtain ⟨f, hf, rfl⟩ := exists_form h
  obtain ⟨keyword, after, -, -, -, ⟨-, rfl⟩ | ⟨arguments, trail, hrun, -, rfl⟩⟩ :=
    InstructionForm.parse_eq_ok_iff.mp hf
  · constructor <;> intro d hd <;> cases hd
  · exact ends_of_argumentRun hrun

end Command

end Dockerfile
