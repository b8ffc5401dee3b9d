import Dockerfile.Proofs.Documentation.Overrides
import Dockerfile.Proofs.Text.LetterCase

/-!
# What a file of documentation is about

The name of a Markdown file is a stem and the extension `.md`; dots alone are no stem. The file is
about the topic that its stem spells, a keyword in capitals or the directive in small letters, and
no stem spells two topics. The text it gives is its content with every line ending turned into a
line feed.

* `About` — the files on a topic, and `ofFileName?_eq_some_iff`
* `unifyEndings_eq` — line endings, turned in one pass
-/

namespace Dockerfile

/-! ## Names -/

/-- A Markdown file with the given stem. The extension starts at the last dot; dots that a name
starts with start no extension. -/
def IsMarkdown (fileName stem : List Char) : Prop :=
  fileName = stem ++ ".md".toList ∧ ∃ c ∈ stem, c ≠ '.'

theorem markdownStem?_eq_some_iff {fileName stem : List Char} :
    markdownStem? fileName = some stem ↔ IsMarkdown fileName stem := by
  unfold markdownStem? IsMarkdown
  constructor
  · intro h
    split at h
    next reversed hname =>
      obtain ⟨hdots, hstem⟩ := Option.ite_none_right_eq_some.mp h
      obtain rfl := Option.some.inj hstem
      refine ⟨?_, by simpa using hdots⟩
      rw [← fileName.reverse_reverse, hname]
      simp
    next => cases h
  · rintro ⟨rfl, c, hc, hdot⟩
    have hany : stem.reverse.any (· != '.') = true :=
      List.any_eq_true.mpr ⟨c, List.mem_reverse.mpr hc, by simpa using hdot⟩
    simp [hany]

namespace Topic

/-- The stem is the name of the topic: a keyword in any case that has its capitals, or the directive
in any case. -/
def SpelledBy (stem : List Char) : Topic → Prop
  | .keyword k => upperCase stem = k.name
  | .escape => lowerCase stem = escapeName

/-- The file is on the topic. -/
def About (fileName : List Char) (t : Topic) : Prop :=
  ∃ stem, IsMarkdown fileName stem ∧ t.SpelledBy stem

theorem ofName?_name (t : Topic) : ofName? t.name = some t := by
  cases t with
  | keyword k => cases k <;> decide
  | escape => decide

/-- The directive is no keyword, whatever its case. -/
theorem ofWord?_of_spells_escape {stem : List Char} (h : lowerCase stem = escapeName) :
    Keyword.ofWord? stem = none := by
  rw [← ofWord?_lowerCase, h]
  decide

theorem ofWord?_eq_some_iff {stem : List Char} {k : Keyword} :
    Keyword.ofWord? stem = some k ↔ upperCase stem = k.name := by
  refine ⟨fun h => (Keyword.name_of_ofName? h).symm, fun h => ?_⟩
  rw [Keyword.ofWord?, h, Keyword.ofName?_name]

/-- **A stem is read as the topic it spells.** -/
theorem ofStem?_eq_some_iff {stem : List Char} {t : Topic} :
    ofStem? stem = some t ↔ t.SpelledBy stem := by
  unfold ofStem?
  cases t with
  | keyword k =>
    rw [SpelledBy, ← ofWord?_eq_some_iff]
    cases Keyword.ofWord? stem with
    | none => simp
    | some k' => simp
  | escape =>
    rw [SpelledBy]
    by_cases hstem : lowerCase stem = escapeName
    · rw [ofWord?_of_spells_escape hstem, if_pos hstem]
      exact iff_of_true rfl hstem
    · rw [if_neg hstem]
      refine iff_of_false (fun h => ?_) hstem
      split at h <;> cases h

theorem ofFileName?_eq_some_iff {fileName : List Char} {t : Topic} :
    ofFileName? fileName = some t ↔ t.About fileName := by
  rw [ofFileName?, Option.bind_eq_some_iff]
  exact exists_congr fun stem => and_congr markdownStem?_eq_some_iff ofStem?_eq_some_iff

/-- A file is on one topic at most. -/
theorem About.unique {fileName : List Char} {t t' : Topic} (h : t.About fileName)
    (h' : t'.About fileName) : t = t' :=
  Option.some.inj ((ofFileName?_eq_some_iff.mpr h).symm.trans (ofFileName?_eq_some_iff.mpr h'))

end Topic

/-! ## Texts -/

/-- Every line ending turned into a line feed, in one pass. -/
def withLineFeeds : List Char → List Char
  | [] => []
  | '\r' :: '\n' :: rest => '\n' :: withLineFeeds rest
  | '\r' :: rest => '\n' :: withLineFeeds rest
  | c :: rest => c :: withLineFeeds rest

/-- A line feed between two lines, in front of all that follow. -/
theorem intercalate_cons_lines (content : List Char) {ls : List RawLine} (h : ls ≠ []) :
    List.intercalate ['\n'] (content :: ls.map (·.content))
      = content ++ '\n' :: List.intercalate ['\n'] (ls.map (·.content)) := by
  cases ls with
  | nil => exact absurd rfl h
  | cons l ls => simp [List.intercalate]

/-- **Lines put together with line feeds** are the text with its endings turned. -/
theorem unifyEndings_eq (s : List Char) : unifyEndings s = withLineFeeds s := by
  unfold unifyEndings
  fun_induction withLineFeeds s with
  | case1 => rfl
  | case2 rest ih =>
    rw [RawLine.ofText, List.map_cons, intercalate_cons_lines _ (RawLine.ofText_ne_nil rest), ih]
    rfl
  | case3 rest hlf ih =>
    rw [RawLine.ofText, List.map_cons, intercalate_cons_lines _ (RawLine.ofText_ne_nil rest), ih]
    · rfl
    · exact hlf
  | case4 c rest hcrlf hcr ih =>
    by_cases hc : c = '\n'
    · subst hc
      rw [RawLine.ofText, List.map_cons, intercalate_cons_lines _ (RawLine.ofText_ne_nil rest), ih]
      rfl
    · rw [RawLine.ofText, ← ih]
      · cases hlines : RawLine.ofText rest with
        | nil => exact absurd hlines (RawLine.ofText_ne_nil rest)
        | cons l ls => cases ls <;> rfl
      · exact hcrlf
      · exact hcr
      · exact hc

end Dockerfile
