import Mathlib.Data.List.TakeWhile
import Dockerfile.Proofs.Syntax.Derivation
import Dockerfile.Syntax.LineGrammar

/-!
# The line grammars

The four grammars as they are written down, with the choices that their rules leave open. Two of
them are settled here: what follows a run of blanks tells whether the run belongs to it, since
blanks are taken as a whole, and neither a keyword nor arguments start with one.

* `LineGrammar.grammar` — the grammars
* `Grammar.derives_directive_iff`, `Grammar.derives_instruction_iff` — the derivations of a text are
  those of the forms that are read from it
-/

namespace Dockerfile

/-! ## Grammars -/

namespace Grammar

/-- A run of blanks. -/
def blanks : Grammar := .word .blanks

/-- A terminal that is kept. -/
def token (t : Terminal) : Grammar := .word (.kept t)

/-- The grammar of a directive: `_WSH? "#" _WSH? DIRECTIVE_KEY "=" DIRECTIVE_VALUE?`. -/
def directive : Grammar := .rule .start <| all
  [optional blanks, .word .hash, optional blanks, token .directiveKey, .word .equals,
    optional (token .directiveValue)]

/-- The grammar of an instruction: `_WSH? KEYWORD ( _WSH ARGUMENTS )? _WSH?`. -/
def instruction : Grammar := .rule .start <| all
  [optional blanks, token .keyword, optional (.seq blanks (token .arguments)), optional blanks]

/-- One chunk of a value: `VALUE_CHUNK | STRING_DQ | STRING_SQ`. -/
def chunk : Grammar :=
  .either (token .valueChunk) (.either (token .doubleQuoted) (token .singleQuoted))

/-- The rule `value: ( VALUE_CHUNK | STRING_DQ | STRING_SQ )+`. -/
def value : Grammar := .rule .value (oneOrMore chunk)

/-- The rules `arg_equals` and `env_equals`: `VAR_NAME "=" value?`. -/
def pair (r : Rule) : Grammar := .rule r <| all
  [token .variableName, .word .equals, optional value]

/-- The rule `_arg_decl: arg_bare | arg_equals`, with `arg_bare: VAR_NAME`. -/
def argDeclaration : Grammar :=
  .either (.rule .argBare (token .variableName)) (pair .argEquals)

/-- The grammar of the arguments of `ARG`: `_WSH? _arg_decl ( _WSH _arg_decl )* _WSH?`. -/
def arg : Grammar := .rule .start <| all
  [optional blanks, argDeclaration, .many (.seq blanks argDeclaration), optional blanks]

/-- The rule `env_space: VAR_NAME _WSH ENV_REST`. -/
def envSpace : Grammar := .rule .envSpace <| all
  [token .variableName, blanks, token .environmentRest]

/-- The rule `_env_equalses: env_equals ( _WSH env_equals )*`. -/
def envEqualses : Grammar := .seq (pair .envEquals) (.many (.seq blanks (pair .envEquals)))

/-- The grammar of the arguments of `ENV`: `_WSH? ( env_space | _env_equalses ) _WSH?`. -/
def env : Grammar := .rule .start <| all
  [optional blanks, .either envSpace envEqualses, optional blanks]

end Grammar

/-- The grammar by what it reads. -/
def LineGrammar.grammar : LineGrammar → Grammar
  | .directive => .directive
  | .instruction => .instruction
  | .arg => .arg
  | .env => .env

/-! ## What stands at a place -/

/-- A blank does not stand at the start of the text. -/
def AtWord (s : List Char) : Prop := ∀ c ∈ s.head?, isBlank c = false

/-- Nothing but a blank stands at the start of the text. -/
def AtGap (s : List Char) : Prop := ∀ c ∈ s.head?, isBlank c = true

/-- A class of characters that the space and the tab are not of holds no blank. -/
theorem isBlank_of_class {p : Char → Bool} (hspace : p ' ' = false) (htab : p '\t' = false)
    {c : Char} (hc : p c = true) : isBlank c = false := by
  rw [← Bool.not_eq_true]
  intro hb
  rcases Bool.or_eq_true_iff.mp hb with h | h <;> rw [eq_of_beq h] at hc
  · exact Bool.false_ne_true (hspace.symm.trans hc)
  · exact Bool.false_ne_true (htab.symm.trans hc)

theorem atWord_cons {c : Char} {s : List Char} (hc : isBlank c = false) : AtWord (c :: s) := by
  intro d hd
  obtain rfl := Option.some.inj hd
  exact hc

theorem atWord_skipBlanks (s : List Char) : AtWord (skipBlanks s) := by
  intro c hc
  have h := List.head?_dropWhile_not isBlank s
  rw [skipBlanks] at hc
  rw [hc] at h
  simpa using h

theorem atWord_of_takeWhile {p : Char → Bool} (hp : ∀ c, p c = true → isBlank c = false)
    {s : List Char} (h : s.takeWhile p ≠ []) : AtWord s := by
  cases s with
  | nil => exact absurd rfl h
  | cons c s =>
    exact atWord_cons (hp c (Decidable.byContradiction fun hc => h (List.takeWhile_cons_of_neg hc)))

/-- A run of a class ends in front of the first character that is not of the class. -/
theorem takeWhile_append_of_head {p : Char → Bool} {run rest : List Char}
    (hrun : ∀ c ∈ run, p c = true) (hrest : ∀ c ∈ rest.head?, p c = false) :
    (run ++ rest).takeWhile p = run ∧ (run ++ rest).dropWhile p = rest := by
  rw [List.takeWhile_append_of_pos hrun, List.dropWhile_append_of_pos hrun]
  cases rest with
  | nil => exact ⟨List.append_nil _, rfl⟩
  | cons c rest =>
    have hc : ¬p c = true := by simp [hrest c rfl]
    rw [List.takeWhile_cons_of_neg hc, List.dropWhile_cons_of_neg hc, List.append_nil]
    exact ⟨rfl, rfl⟩

theorem leadingBlanks_ne_nil_iff {s : List Char} :
    leadingBlanks s ≠ [] ↔ s ≠ [] ∧ AtGap s := by
  cases s with
  | nil => simp [leadingBlanks]
  | cons c s =>
    by_cases hc : isBlank c = true <;> simp [leadingBlanks, AtGap, hc]

/-- Blanks end where a word starts. -/
theorem leadingBlanks_append {gap s : List Char} (hgap : isAllBlank gap = true) (hs : AtWord s) :
    leadingBlanks (gap ++ s) = gap ∧ skipBlanks (gap ++ s) = s :=
  takeWhile_append_of_head (List.all_eq_true.mp hgap) hs

/-- Between the offsets of a part of a text there is the part. -/
theorem extract_of_append {s front part back : List Char} (hs : s = front ++ (part ++ back))
    {start stop : Nat} (hstart : start = front.length) (hstop : stop = start + part.length) :
    s.extract start stop = part := by
  rw [List.extract_eq_take_drop, hs, hstop, Nat.add_sub_cancel_left, hstart, List.drop_left,
    List.take_left]

theorem isAllBlank_iff_skipBlanks {s : List Char} : isAllBlank s = true ↔ skipBlanks s = [] := by
  rw [skipBlanks, List.dropWhile_eq_nil_iff, isAllBlank, List.all_eq_true]

/-- No word starts in front of a gap. -/
theorem eq_nil_of_atGap {word rest : List Char} (hgap : AtGap (word ++ rest))
    (hword : AtWord word) : word = [] := by
  by_contra hne
  obtain ⟨c, more, rfl⟩ := List.exists_cons_of_ne_nil hne
  exact Bool.false_ne_true ((hword c rfl).symm.trans (hgap c rfl))

theorem AtGap.of_isAllBlank {s : List Char} (h : isAllBlank s = true) : AtGap s := fun c hc =>
  List.all_eq_true.mp h c (List.mem_of_head? hc)

/-! ## Words -/

namespace Derivation

/-- One after the other. -/
def all : List Derivation → Derivation
  | [] => .empty
  | d :: ds => .seq d (all ds)

/-- A word that need not be there, and is not if its text is empty. -/
def optionalWord (w : Lexeme) (text : List Char) : Derivation :=
  if text.isEmpty then .right .empty else .left (.word w text)

theorem source_optionalWord (w : Lexeme) (text : List Char) :
    (optionalWord w text).source = text := by
  cases text <;> rfl

theorem trees_optionalBlanks (start : Nat) (text : List Char) :
    (optionalWord .blanks text).trees start = [] := by
  cases text <;> rfl

theorem trees_optionalWord_kept (start : Nat) (t : Terminal) (text : List Char) :
    (optionalWord (.kept t) text).trees start
      = if text.isEmpty then [] else [.token ⟨t, text, start⟩] := by
  cases text <;> rfl

end Derivation

namespace Grammar

section Words

variable {w : Lexeme} {p : Char → Bool} {s rest : List Char} {d : Derivation}

theorem derives_run_iff (hw : w.pattern = .run p) : Derives (.word w) s d rest
    ↔ s.takeWhile p ≠ [] ∧ rest = s.dropWhile p ∧ d = .word w (s.takeWhile p) := by
  rw [derives_word_iff, hw, Pattern.greedy?_run]
  constructor
  · rintro ⟨text, h, rfl⟩
    split at h
    · cases h
    next hne =>
      obtain ⟨rfl, rfl⟩ := Prod.mk.inj (Option.some.inj h)
      exact ⟨hne, rfl, rfl⟩
  · rintro ⟨hne, rfl, rfl⟩
    exact ⟨_, if_neg hne, rfl⟩

/-- **A run that need not be there is there if a character of its class is**, unless that character
is left to what comes next. -/
theorem derives_optional_run_iff (hw : w.pattern = .run p) (hrest : ∀ c ∈ rest.head?, p c = false) :
    Derives (optional (.word w)) s d rest
      ↔ rest = s.dropWhile p ∧ d = .optionalWord w (s.takeWhile p) := by
  rw [optional, derives_either_iff]
  constructor
  · rintro (⟨e, h, rfl⟩ | ⟨e, h, rfl⟩)
    · obtain ⟨hne, hr, rfl⟩ := (derives_run_iff hw).mp h
      refine ⟨hr, ?_⟩
      rw [Derivation.optionalWord, if_neg (by simpa using hne)]
    · obtain ⟨rfl, rfl⟩ := derives_empty_iff.mp h
      cases rest with
      | nil => exact ⟨rfl, rfl⟩
      | cons c rest =>
        have hc : ¬p c = true := by simp [hrest c rfl]
        rw [List.dropWhile_cons_of_neg hc, List.takeWhile_cons_of_neg hc]
        exact ⟨rfl, rfl⟩
  · rintro ⟨rfl, rfl⟩
    by_cases hne : s.takeWhile p = []
    · have hself : s.dropWhile p = s :=
        List.dropWhile_eq_self_iff.mpr (List.takeWhile_eq_nil_iff.mp hne)
      rw [hne, hself]
      exact Or.inr ⟨_, .empty, rfl⟩
    · refine Or.inl ⟨_, (derives_run_iff hw).mpr ⟨hne, rfl, rfl⟩, ?_⟩
      rw [Derivation.optionalWord, if_neg (by simpa using hne)]

theorem derives_blanks_iff : Derives blanks s d rest
    ↔ leadingBlanks s ≠ [] ∧ rest = skipBlanks s ∧ d = .word .blanks (leadingBlanks s) :=
  derives_run_iff rfl

theorem derives_optional_blanks_iff (hrest : AtWord rest) : Derives (optional blanks) s d rest
    ↔ rest = skipBlanks s ∧ d = .optionalWord .blanks (leadingBlanks s) :=
  derives_optional_run_iff rfl hrest

/-- The blanks at the end of a text. -/
theorem derives_last_blanks_iff : Derives (all [optional blanks]) s d []
    ↔ isAllBlank s = true ∧ d = .all [.optionalWord .blanks s] := by
  rw [all, derives_seq_iff, isAllBlank_iff_skipBlanks]
  have hself : skipBlanks s = [] → leadingBlanks s = s := fun h =>
    List.takeWhile_eq_self_iff.mpr (List.dropWhile_eq_nil_iff.mp h)
  constructor
  · rintro ⟨da, mid, db, ha, hb, rfl⟩
    obtain ⟨rfl, rfl⟩ := derives_empty_iff.mp hb
    obtain ⟨h, rfl⟩ := (derives_optional_blanks_iff (by simp [AtWord])).mp ha
    exact ⟨h.symm, by rw [hself h.symm]; rfl⟩
  · rintro ⟨h, rfl⟩
    have hblanks := (derives_optional_blanks_iff (by simp [AtWord])).mpr ⟨h.symm, rfl⟩
    refine ⟨_, [], _, hblanks, .empty, ?_⟩
    rw [hself h]
    rfl

/-- A word of one given character. -/
theorem derives_one_iff {c : Char} (hw : w.pattern = .one (· == c)) :
    Derives (.word w) s d rest ↔ s = c :: rest ∧ d = .word w [c] := by
  rw [derives_word_iff, hw]
  constructor
  · rintro ⟨text, h, rfl⟩
    obtain ⟨e, rfl, he, rfl⟩ := Pattern.greedy?_one_eq_some_iff.mp h
    rw [eq_of_beq he]
    exact ⟨rfl, rfl⟩
  · rintro ⟨rfl, rfl⟩
    exact ⟨[c], Pattern.greedy?_one_eq_some_iff.mpr ⟨c, rfl, beq_self_eq_true c, rfl⟩, rfl⟩

theorem derives_hash_iff :
    Derives (.word .hash) s d rest ↔ s = '#' :: rest ∧ d = .word .hash ['#'] := derives_one_iff rfl

theorem derives_equals_iff :
    Derives (.word .equals) s d rest ↔ s = '=' :: rest ∧ d = .word .equals ['='] :=
  derives_one_iff rfl

/-- A terminal that takes the rest of a line. -/
theorem derives_line_iff {t : Terminal} (ht : t.pattern = .line) : Derives (token t) s d rest
    ↔ ∃ text, argumentRun s = some (text, rest) ∧ d = .word (.kept t) text := by
  rw [token, derives_word_iff, Lexeme.pattern, ht, Pattern.greedy?_line]

end Words

end Grammar

/-! ## Directives -/

/-- The start of a key is no blank. -/
theorem isBlank_of_isKeyStart {c : Char} (hc : isKeyStart c = true) : isBlank c = false :=
  isBlank_of_class rfl rfl hc

theorem isKeyChar_of_isKeyStart {c : Char} (hc : isKeyStart c = true) : isKeyChar c = true := by
  have hc : c.isAlpha = true := hc
  simp [isKeyChar, Char.isAlphanum, hc]

namespace DirectiveForm

/-- What is read as a directive. -/
theorem parse_eq_ok_iff {s : List Char} {f : DirectiveForm} : parse s = .ok f
    ↔ ∃ rest c tail value, skipBlanks s = '#' :: rest ∧ skipBlanks rest = c :: tail
      ∧ isKeyStart c = true ∧ (c :: tail).dropWhile isKeyChar = '=' :: value ∧ '\n' ∉ value
      ∧ f = ⟨leadingBlanks s, leadingBlanks rest, (c :: tail).takeWhile isKeyChar, value⟩ := by
  constructor
  · intro h
    unfold parse at h
    split at h
    next rest hrest =>
      unfold parseBody at h
      split at h
      next => cases h
      next c tail htail =>
        split at h
        next hc =>
          split at h
          next value hvalue =>
            split at h
            next => cases h
            next hlf =>
              refine ⟨rest, c, tail, value, hrest, htail, hc, hvalue, by simpa using hlf, ?_⟩
              exact (Except.ok.inj h).symm
          next => cases h
        next => cases h
    next => cases h
  · rintro ⟨rest, c, tail, value, hrest, htail, hc, hvalue, hlf, rfl⟩
    rw [parse, hrest]
    simp only [parseBody, htail, hc, if_true, hvalue]
    rw [if_neg (by simpa using hlf)]

/-- The parts of a directive, put together, are the text that it is read from. -/
theorem source_of_parse {s : List Char} {f : DirectiveForm} (h : parse s = .ok f) :
    f.source = s := by
  obtain ⟨rest, c, tail, value, hrest, htail, -, hvalue, -, rfl⟩ := parse_eq_ok_iff.mp h
  have hkey := List.takeWhile_append_dropWhile (p := isKeyChar) (l := c :: tail)
  have hgap := leadingBlanks_append_skipBlanks rest
  have hlead := leadingBlanks_append_skipBlanks s
  rw [hvalue, ← htail] at hkey
  rw [← hkey] at hgap
  rw [hrest, ← hgap, htail] at hlead
  exact hlead

/-- The derivation of a directive. -/
def derivation (f : DirectiveForm) : Derivation := .rule .start <| .all
  [.optionalWord .blanks f.lead, .word .hash ['#'], .optionalWord .blanks f.gap,
    .word (.kept .directiveKey) f.key, .word .equals ['='],
    .optionalWord (.kept .directiveValue) f.value]

theorem trees_derivation (f : DirectiveForm) : f.derivation.trees 0 = [f.tree] := by
  have hkey : f.lead.length + (1 + f.gap.length) = f.keyStart := (Nat.add_assoc _ _ _).symm
  have hvalue : f.lead.length + (1 + (f.gap.length + (f.key.length + 1))) = f.valueStart := by
    rw [valueStart, ← hkey]
    omega
  simp only [derivation, Derivation.all, Derivation.trees, Derivation.wordTrees,
    Derivation.trees_optionalBlanks, Derivation.trees_optionalWord_kept, Derivation.source,
    Derivation.source_optionalWord, List.nil_append, List.append_nil, List.length_singleton,
    Nat.zero_add, Nat.add_assoc]
  rw [hkey, hvalue]
  rfl

end DirectiveForm

namespace Grammar

theorem derives_key_iff {s rest : List Char} {d : Derivation} :
    Derives (token .directiveKey) s d rest ↔ ∃ c tail, s = c :: tail ∧ isKeyStart c = true
      ∧ rest = s.dropWhile isKeyChar ∧ d = .word (.kept .directiveKey) (s.takeWhile isKeyChar) := by
  rw [token, derives_word_iff, Lexeme.pattern, Terminal.pattern]
  cases s with
  | nil => simp [Pattern.greedy?_one_seq_nil]
  | cons c tail =>
    rw [Pattern.greedy?_one_seq_cons, Pattern.greedy?_many]
    by_cases hc : isKeyStart c = true
    · have hchar := isKeyChar_of_isKeyStart hc
      rw [if_pos hc, List.takeWhile_cons_of_pos hchar, List.dropWhile_cons_of_pos hchar]
      constructor
      · rintro ⟨text, h, rfl⟩
        obtain ⟨rfl, rfl⟩ := Prod.mk.inj (Option.some.inj h)
        exact ⟨c, tail, rfl, hc, rfl, rfl⟩
      · rintro ⟨-, -, -, -, rfl, rfl⟩
        exact ⟨_, rfl, rfl⟩
    · rw [if_neg hc]
      constructor
      · rintro ⟨text, h, -⟩
        cases h
      · rintro ⟨d, tail', heq, hd, -⟩
        exact absurd ((List.cons.inj heq).1 ▸ hd) hc

/-- **The derivations of a text as a directive** are those of the form that is read from it. -/
theorem derives_directive_iff {s : List Char} {d : Derivation} :
    Derives directive s d [] ↔ ∃ f, DirectiveForm.parse s = .ok f ∧ d = f.derivation := by
  constructor
  · intro h
    obtain ⟨e, h₀, rfl⟩ := derives_rule_iff.mp h
    obtain ⟨dlead, s₁, e₁, hlead, h₁, rfl⟩ := derives_seq_iff.mp h₀
    obtain ⟨dhash, s₂, e₂, hhash, h₂, rfl⟩ := derives_seq_iff.mp h₁
    obtain ⟨dgap, s₃, e₃, hgap, h₃, rfl⟩ := derives_seq_iff.mp h₂
    obtain ⟨dkey, s₄, e₄, hkey, h₄, rfl⟩ := derives_seq_iff.mp h₃
    obtain ⟨dequals, s₅, e₅, hequals, h₅, rfl⟩ := derives_seq_iff.mp h₄
    obtain ⟨dvalue, s₆, e₆, hvalue, hend, rfl⟩ := derives_seq_iff.mp h₅
    obtain ⟨rfl, rfl⟩ := derives_hash_iff.mp hhash
    obtain ⟨c, tail, rfl, hc, rfl, rfl⟩ := derives_key_iff.mp hkey
    obtain ⟨hstop, rfl⟩ := derives_equals_iff.mp hequals
    obtain ⟨rfl, rfl⟩ := derives_empty_iff.mp hend
    obtain ⟨hs, rfl⟩ := (derives_optional_blanks_iff (atWord_cons rfl)).mp hlead
    obtain ⟨hrest, rfl⟩ :=
      (derives_optional_blanks_iff (atWord_cons (isBlank_of_isKeyStart hc))).mp hgap
    obtain ⟨hall, rfl⟩ :=
      (derives_optional_run_iff (w := .kept .directiveValue) rfl (by simp)).mp hvalue
    have hvalue : s₅.takeWhile (· != '\n') = s₅ :=
      List.takeWhile_eq_self_iff.mpr (List.dropWhile_eq_nil_iff.mp hall.symm)
    have hlf : '\n' ∉ s₅ := fun hmem =>
      absurd (List.dropWhile_eq_nil_iff.mp hall.symm _ hmem) (by decide)
    refine ⟨_, DirectiveForm.parse_eq_ok_iff.mpr
      ⟨s₂, c, tail, s₅, hs.symm, hrest.symm, hc, hstop, hlf, rfl⟩, ?_⟩
    rw [hvalue]
    rfl
  · rintro ⟨f, hf, rfl⟩
    obtain ⟨rest, c, tail, value, hrest, htail, hc, hvalue, hlf, rfl⟩ :=
      DirectiveForm.parse_eq_ok_iff.mp hf
    have hline : ∀ e ∈ value, (e != '\n') = true := fun e he =>
      bne_iff_ne.mpr fun heq => hlf (heq ▸ he)
    have hall : value.dropWhile (· != '\n') = [] := List.dropWhile_eq_nil_iff.mpr hline
    have htake : value.takeWhile (· != '\n') = value := List.takeWhile_eq_self_iff.mpr hline
    have hlead := derives_optional_blanks_iff (s := s) (atWord_cons rfl) |>.mpr ⟨hrest.symm, rfl⟩
    have hgap := derives_optional_blanks_iff (s := rest) (atWord_cons (isBlank_of_isKeyStart hc))
      |>.mpr ⟨htail.symm, rfl⟩
    have hkey := derives_key_iff.mpr ⟨c, tail, rfl, hc, hvalue.symm, rfl⟩
    have hend := derives_optional_run_iff (w := .kept .directiveValue) (s := value) rfl (by simp)
      |>.mpr ⟨hall.symm, rfl⟩
    rw [htake] at hend
    exact .rule (.seq hlead (.seq (derives_hash_iff.mpr ⟨rfl, rfl⟩) (.seq hgap (.seq hkey
      (.seq (derives_equals_iff.mpr ⟨rfl, rfl⟩) (.seq hend .empty))))))

end Grammar

/-! ## Instructions -/

namespace InstructionForm

/-- What is read as an instruction. -/
theorem parse_eq_ok_iff {s : List Char} {f : InstructionForm} : parse s = .ok f
    ↔ ∃ keyword after, keyword ≠ [] ∧ keyword = (skipBlanks s).takeWhile isKeywordChar
      ∧ after = (skipBlanks s).dropWhile isKeywordChar
      ∧ (argumentRun (skipBlanks after) = none ∧ f = ⟨leadingBlanks s, keyword, [], [], after⟩
        ∨ ∃ arguments trail, argumentRun (skipBlanks after) = some (arguments, trail)
          ∧ isAllBlank trail = true
          ∧ f = ⟨leadingBlanks s, keyword, leadingBlanks after, arguments, trail⟩) := by
  constructor
  · intro h
    unfold parse at h
    simp only at h
    split at h
    next => cases h
    next hne =>
      refine ⟨_, _, by simpa using hne, rfl, rfl, ?_⟩
      split at h
      next hrun => exact Or.inl ⟨hrun, (Except.ok.inj h).symm⟩
      next arguments trail hrun =>
        split at h
        next hblank => exact Or.inr ⟨arguments, trail, hrun, hblank, (Except.ok.inj h).symm⟩
        next => cases h
  · rintro ⟨keyword, after, hne, rfl, rfl, ⟨hrun, rfl⟩ | ⟨arguments, trail, hrun, hblank, rfl⟩⟩
    · unfold parse
      simp only
      rw [if_neg (by simpa using hne), hrun]
    · unfold parse
      simp only
      rw [if_neg (by simpa using hne), hrun]
      simp only [hblank, if_true]

/-- The derivation of an instruction. -/
def derivation (f : InstructionForm) : Derivation := .rule .start <| .all
  [.optionalWord .blanks f.lead, .word (.kept .keyword) f.keyword,
    if f.arguments.isEmpty then .right .empty
    else .left (.seq (.word .blanks f.gap) (.word (.kept .arguments) f.arguments)),
    .optionalWord .blanks f.trail]

end InstructionForm

/-- Arguments are looked for behind blanks, and are not there only if the text ends. -/
theorem argumentRun_eq_none_iff {s : List Char} (h : AtWord s) :
    argumentRun s = none ↔ s = [] := by
  cases s with
  | nil => simp [argumentRun]
  | cons c s =>
    simp only [argumentRun, h c rfl, Bool.false_eq_true, if_false]
    split <;> simp

theorem argumentRun_ne_nil {s run rest : List Char} (h : argumentRun s = some (run, rest)) :
    run ≠ [] := by
  cases s with
  | nil => simp [argumentRun] at h
  | cons c s =>
    simp only [argumentRun] at h
    split at h
    · cases h
    · split at h
      next =>
        obtain ⟨rfl, -⟩ := Prod.mk.inj (Option.some.inj h)
        exact List.cons_ne_nil _ _
      next =>
        obtain ⟨rfl, -⟩ := Prod.mk.inj (Option.some.inj h)
        exact List.cons_ne_nil _ _

/-- Behind a run of non-blank characters there is a gap. -/
theorem atGap_dropWhile_isKeywordChar (s : List Char) : AtGap (s.dropWhile isKeywordChar) := by
  intro c hc
  have h := List.head?_dropWhile_not isKeywordChar s
  rw [hc] at h
  simpa [isKeywordChar] using h

theorem InstructionForm.trees_derivation {s : List Char} {f : InstructionForm}
    (h : parse s = .ok f) : f.derivation.trees 0 = [f.tree] := by
  obtain ⟨keyword, after, -, -, -, ⟨-, rfl⟩ | ⟨arguments, trail, hrun, -, rfl⟩⟩ :=
    parse_eq_ok_iff.mp h
  · simp only [derivation, Derivation.all, Derivation.trees, Derivation.wordTrees,
      Derivation.trees_optionalBlanks, Derivation.source, Derivation.source_optionalWord,
      List.nil_append, List.append_nil, Nat.zero_add, List.isEmpty_nil, if_true]
    rfl
  · have hne : arguments.isEmpty = false := by simpa using argumentRun_ne_nil hrun
    simp only [derivation, Derivation.all, Derivation.trees, Derivation.wordTrees,
      Derivation.trees_optionalBlanks, Derivation.source, Derivation.source_optionalWord,
      List.nil_append, List.append_nil, List.append_assoc, Nat.zero_add, hne, Bool.false_eq_true,
      if_false, tree]
    rfl

namespace Grammar

/-- **The derivations of a text as an instruction** are those of the form that is read from it. -/
theorem derives_instruction_iff {s : List Char} {d : Derivation} :
    Derives instruction s d [] ↔ ∃ f, InstructionForm.parse s = .ok f ∧ d = f.derivation := by
  constructor
  · intro h
    obtain ⟨e, h₀, rfl⟩ := derives_rule_iff.mp h
    obtain ⟨dlead, body, e₁, hlead, h₁, rfl⟩ := derives_seq_iff.mp h₀
    obtain ⟨dkeyword, after, e₂, hkeyword, h₂, rfl⟩ := derives_seq_iff.mp h₁
    obtain ⟨drun, trail, e₃, hrun, hend, rfl⟩ := derives_seq_iff.mp h₂
    obtain ⟨hne, rfl, rfl⟩ :=
      (derives_run_iff (w := .kept .keyword) (p := isKeywordChar) rfl).mp hkeyword
    obtain ⟨rfl, rfl⟩ := (derives_optional_blanks_iff
      (atWord_of_takeWhile (fun c hc => by simpa [isKeywordChar] using hc) hne)).mp hlead
    obtain ⟨hblank, rfl⟩ := derives_last_blanks_iff.mp hend
    rcases derives_either_iff.mp hrun with ⟨e, hsome, rfl⟩ | ⟨e, hnone, rfl⟩
    · obtain ⟨dgap, start, dargs, hgap, hargs, rfl⟩ := derives_seq_iff.mp hsome
      obtain ⟨-, rfl, rfl⟩ := derives_blanks_iff.mp hgap
      obtain ⟨arguments, hline, rfl⟩ := (derives_line_iff (t := .arguments) rfl).mp hargs
      refine ⟨_, InstructionForm.parse_eq_ok_iff.mpr ⟨_, _, hne, rfl, rfl,
        Or.inr ⟨arguments, trail, hline, hblank, rfl⟩⟩, ?_⟩
      rw [InstructionForm.derivation, if_neg (by simpa using argumentRun_ne_nil hline)]
      rfl
    · obtain ⟨rfl, rfl⟩ := derives_empty_iff.mp hnone
      refine ⟨_, InstructionForm.parse_eq_ok_iff.mpr ⟨_, _, hne, rfl, rfl, Or.inl ⟨?_, rfl⟩⟩, rfl⟩
      rw [isAllBlank_iff_skipBlanks.mp hblank]
      rfl
  · rintro ⟨f, hf, rfl⟩
    obtain ⟨keyword, after, hne, rfl, rfl, hcases⟩ := InstructionForm.parse_eq_ok_iff.mp hf
    have hlead := (derives_optional_blanks_iff (s := s) (atWord_skipBlanks s)).mpr ⟨rfl, rfl⟩
    have hkeyword := (derives_run_iff (w := .kept .keyword) (p := isKeywordChar) rfl).mpr
      ⟨hne, rfl, rfl⟩
    rcases hcases with ⟨hrun, rfl⟩ | ⟨arguments, trail, hrun, hblank, rfl⟩
    · have hskip := (argumentRun_eq_none_iff (atWord_skipBlanks _)).mp hrun
      have hend := derives_last_blanks_iff.mpr ⟨isAllBlank_iff_skipBlanks.mpr hskip, rfl⟩
      exact .rule (.seq hlead (.seq hkeyword (.seq (.right .empty) hend)))
    · -- the arguments do not follow the keyword at once, since it takes all that is not blank
      have hgap : leadingBlanks ((skipBlanks s).dropWhile isKeywordChar) ≠ [] := by
        refine leadingBlanks_ne_nil_iff.mpr ⟨fun hnil => ?_, atGap_dropWhile_isKeywordChar _⟩
        rw [hnil] at hrun
        cases hrun
      have hrest := Derives.seq (derives_blanks_iff.mpr ⟨hgap, rfl, rfl⟩)
        ((derives_line_iff (t := .arguments) rfl).mpr ⟨arguments, hrun, rfl⟩)
      have hend := derives_last_blanks_iff.mpr ⟨hblank, rfl⟩
      rw [InstructionForm.derivation, if_neg (by simpa using argumentRun_ne_nil hrun)]
      exact .rule (.seq hlead (.seq hkeyword (.seq (.left hrest) hend)))

end Grammar

end Dockerfile
