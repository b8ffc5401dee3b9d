import Dockerfile.Proofs.Line.Cut
import Dockerfile.Proofs.Line.Shift

/-!
# One pass over the text

The logical texts can be read off a text in one pass from the left, without cutting it into lines
first. Characters are copied; the escape character, if nothing but blanks and a line ending follow,
is taken out together with these, and the logical line stays open; any other line ending closes it.
Only where a physical line starts does the pass look at the whole of it: a comment line is a logical
line of its own, or it is passed over if a logical line is open.

The two ways to read a text look for a marker from different ends: the pass decides at each escape
character by what follows, while joining searches a whole content for a marker at its end.

* `OnePass.texts` — the pass
* `OnePass.texts_eq` — it finds what joining the lines finds

## Termination

Each step leaves less of the text over, or it stays where it is and goes into the line that starts
there.
-/

namespace Dockerfile

namespace OnePass

/-! ## The pass -/

/-- A character that belongs to a line ending. -/
def isEndingChar (c : Char) : Bool := c == '\r' || c == '\n'

/-- What follows the line ending that a text starts with. -/
def afterEnding? : List Char → Option (List Char)
  | '\r' :: '\n' :: rest => some rest
  | '\r' :: rest => some rest
  | '\n' :: rest => some rest
  | _ => none

/-- What follows the escape character that a text starts with, the blanks behind it and the line
ending behind these. -/
def afterMarker? (e : Char) : List Char → Option (List Char)
  | [] => none
  | c :: s => if c = e then afterEnding? (skipBlanks s) else none

/-- The rest of the physical line that a text starts with. -/
def lineText (s : List Char) : List Char := s.takeWhile fun c => !isEndingChar c

/-- What follows the physical line that a text starts with, the line ending included. -/
def afterLine? (s : List Char) : Option (List Char) :=
  afterEnding? (s.dropWhile fun c => !isEndingChar c)

theorem afterEnding?_length {s rest : List Char} (h : afterEnding? s = some rest) :
    rest.length < s.length := by
  unfold afterEnding? at h
  split at h
  · obtain rfl := Option.some.inj h
    simp only [List.length_cons]
    omega
  · obtain rfl := Option.some.inj h
    exact Nat.lt_succ_self _
  · obtain rfl := Option.some.inj h
    exact Nat.lt_succ_self _
  · cases h

theorem afterMarker?_length {e : Char} {s rest : List Char} (h : afterMarker? e s = some rest) :
    rest.length < s.length := by
  unfold afterMarker? at h
  split at h
  · cases h
  · split at h
    · exact Nat.lt_succ_of_lt
        (Nat.lt_of_lt_of_le (afterEnding?_length h) (skipBlanks_length_le _))
    · cases h

theorem afterLine?_length {s rest : List Char} (h : afterLine? s = some rest) :
    rest.length < s.length :=
  Nat.lt_of_lt_of_le (afterEnding?_length h) (List.dropWhile_suffix _).length_le

/-- Where the pass is. -/
inductive State
  /-- At the start of a physical line, and no logical line is open. -/
  | closed
  /-- At the start of a physical line, and the logical line above goes on. -/
  | opened
  /-- In a physical line that belongs to the logical line. -/
  | inside

/-- Puts characters in front of the first text. -/
def addFront (t : List Char) : List (List Char) → List (List Char)
  | [] => [t]
  | u :: more => (t ++ u) :: more

/-- The rest of the open logical text, if there is one, and the logical texts behind it. -/
def texts (e : Char) : State → List Char → List (List Char)
  | .closed, s =>
    if isCommentText s then
      lineText s ::
        match _h : afterLine? s with
        | some rest => texts e .closed rest
        | none => []
    else texts e .inside s
  | .opened, s =>
    if isCommentText s then
      match _h : afterLine? s with
      | some rest => texts e .opened rest
      | none => [[]]
    else texts e .inside s
  | .inside, [] => [[]]
  | .inside, c :: s =>
    match _h : afterMarker? e (c :: s) with
    | some rest => texts e .opened rest
    | none =>
      match _h : afterEnding? (c :: s) with
      | some rest => [] :: texts e .closed rest
      | none => addFront [c] (texts e .inside s)
termination_by state s => (s.length, match state with | .inside => 0 | _ => 1)
decreasing_by
  · exact Prod.Lex.left _ _ (afterLine?_length _h)
  · exact Prod.Lex.right _ Nat.zero_lt_one
  · exact Prod.Lex.left _ _ (afterLine?_length _h)
  · exact Prod.Lex.right _ Nat.zero_lt_one
  · exact Prod.Lex.left _ _ (afterMarker?_length _h)
  · exact Prod.Lex.left _ _ (afterEnding?_length _h)
  · exact Prod.Lex.left _ _ (Nat.lt_succ_self _)

/-! ## Lines of the text -/

section Lines

variable {e : Char} {s rest : List Char}

theorem isBlank_eq_false_of_isEndingChar {c : Char} (h : isEndingChar c = true) :
    isBlank c = false := by
  rcases Bool.or_eq_true_iff.mp h with h | h <;> rw [eq_of_beq h] <;> decide

theorem not_mem_of_isEndingChar {content : List Char}
    (h : ∀ c ∈ content, isEndingChar c = false) : '\r' ∉ content ∧ '\n' ∉ content :=
  ⟨fun hc => absurd (h _ hc) (by decide), fun hc => absurd (h _ hc) (by decide)⟩

theorem isEndingChar_of_isBlank {c : Char} (h : isBlank c = true) : isEndingChar c = false := by
  rw [← Bool.not_eq_true]
  intro hc
  rw [isBlank_eq_false_of_isEndingChar hc] at h
  cases h

/-- In front of a line ending the text is cut. -/
theorem ofText_of_afterEnding? (h : afterEnding? s = some rest) :
    ∃ ending, ending ≠ .none ∧ RawLine.ofText s = ⟨[], ending⟩ :: RawLine.ofText rest := by
  unfold afterEnding? at h
  split at h
  · obtain rfl := Option.some.inj h
    exact ⟨.crlf, by simp, by rw [RawLine.ofText]⟩
  next hne =>
    obtain rfl := Option.some.inj h
    exact ⟨.cr, by simp, by rw [RawLine.ofText]; exact fun _ => hne _⟩
  · obtain rfl := Option.some.inj h
    exact ⟨.lf, by simp, by rw [RawLine.ofText]⟩
  · cases h

theorem afterEnding?_ending {ending : LineEnding} (h : ending ≠ .none) (s : List Char) :
    afterEnding? (ending.text ++ s) ≠ none := by
  cases ending with
  | none => exact absurd rfl h
  | lf => simp [LineEnding.text, afterEnding?]
  | crlf => simp [LineEnding.text, afterEnding?]
  | cr =>
    show afterEnding? ('\r' :: s) ≠ none
    unfold afterEnding?
    split <;> simp_all

/-- A text whose first character belongs to no line ending has none at its start. -/
theorem afterEnding?_cons_eq_none_iff {c : Char} :
    afterEnding? (c :: s) = none ↔ isEndingChar c = false := by
  unfold afterEnding? isEndingChar
  split <;> simp_all

/-- **The first line of a text** and what is behind it. -/
theorem ofText_eq_line (s : List Char) :
    (afterLine? s = none ∧ RawLine.ofText s = [⟨lineText s, .none⟩])
      ∨ ∃ ending rest, ending ≠ .none ∧ afterLine? s = some rest
        ∧ RawLine.ofText s = ⟨lineText s, ending⟩ :: RawLine.ofText rest := by
  have hsplit := List.takeWhile_append_dropWhile (p := fun c => !isEndingChar c) (l := s)
  have hcontent : ∀ c ∈ lineText s, isEndingChar c = false := by
    intro c hc
    have hnot := List.all_eq_true.mp (List.all_takeWhile (p := fun c => !isEndingChar c)) c hc
    simpa using hnot
  obtain ⟨hcr, hlf⟩ := not_mem_of_isEndingChar hcontent
  unfold afterLine?
  cases hafter : s.dropWhile fun c => !isEndingChar c with
  | nil =>
    rw [hafter] at hsplit
    have hs := RawLine.ofText_append hcr hlf (s := []) rfl
    rw [List.append_nil] at hs
    rw [List.append_nil] at hsplit
    refine Or.inl ⟨rfl, ?_⟩
    rw [lineText, hsplit] at hs ⊢
    exact hs
  | cons c tail =>
    have hc : isEndingChar c = true := by
      have := List.head?_dropWhile_not (fun c => !isEndingChar c) s
      simpa [hafter] using this
    cases hend : afterEnding? (c :: tail) with
    | none =>
      rw [afterEnding?_cons_eq_none_iff.mp hend] at hc
      cases hc
    | some rest =>
      obtain ⟨ending, hne, htail⟩ := ofText_of_afterEnding? hend
      have hs := RawLine.ofText_append hcr hlf htail
      rw [← hafter, lineText, hsplit, List.append_nil] at hs
      exact Or.inr ⟨ending, rest, hne, rfl, hs⟩

/-- The first line tells whether a comment line starts a text. -/
theorem isCommentText_lineText (s : List Char) :
    isCommentText (lineText s) = isCommentText s := by
  have hsplit := List.takeWhile_append_dropWhile (p := fun c => !isEndingChar c) (l := s)
  cases hafter : s.dropWhile fun c => !isEndingChar c with
  | nil =>
    rw [hafter, List.append_nil] at hsplit
    rw [lineText, hsplit]
  | cons c tail =>
    have hc : isEndingChar c = true := by
      have := List.head?_dropWhile_not (fun c => !isEndingChar c) s
      simpa [hafter] using this
    have hne : c ≠ '#' := by
      rintro rfl
      cases hc
    have happend := isCommentText_append_cons (isBlank_eq_false_of_isEndingChar hc) hne
      (lineText s) tail
    rw [← hafter, lineText, hsplit] at happend
    exact happend.symm

/-- **A marker in the text** is a line of which nothing is in front of the marker. -/
theorem ofText_of_afterMarker? (he : isEndingChar e = false) (h : afterMarker? e s = some rest) :
    ∃ blanks ending, isAllBlank blanks = true ∧ ending ≠ .none
      ∧ RawLine.ofText s = ⟨e :: blanks, ending⟩ :: RawLine.ofText rest := by
  unfold afterMarker? at h
  split at h
  · cases h
  next c tail =>
    split at h
    next heq =>
      obtain rfl := heq
      obtain ⟨ending, hne, htail⟩ := ofText_of_afterEnding? h
      have hblanks : isAllBlank (leadingBlanks tail) = true := List.all_takeWhile
      have hcontent : ∀ d ∈ c :: leadingBlanks tail, isEndingChar d = false :=
        List.forall_mem_cons.mpr
          ⟨he, fun d hd => isEndingChar_of_isBlank (List.all_eq_true.mp hblanks d hd)⟩
      obtain ⟨hcr, hlf⟩ := not_mem_of_isEndingChar hcontent
      have hs := RawLine.ofText_append hcr hlf htail
      rw [List.cons_append, leadingBlanks_append_skipBlanks, List.append_nil] at hs
      exact ⟨_, ending, hblanks, hne, hs⟩
    next => cases h

/-- Where the text has no marker, a line that has an ending does not start with one. -/
theorem isMarker_eq_false_of_afterMarker? {l : RawLine} {more : List RawLine}
    (hs : RawLine.ofText s = l :: more) (hl : l.ending ≠ .none)
    (h : afterMarker? e s = none) : isMarker [e] l.content = false := by
  rw [← Bool.not_eq_true]
  intro hm
  obtain ⟨blanks, hb, hcontent⟩ := isMarker_iff.mp hm
  have htext := RawLine.flatMap_text_ofText s
  rw [hs, List.flatMap_cons, RawLine.text, hcontent] at htext
  simp only [List.cons_append, List.nil_append, List.append_assoc] at htext
  rw [← htext, afterMarker?, if_pos rfl] at h
  have hskip : skipBlanks (blanks ++ (l.ending.text ++ more.flatMap RawLine.text))
      = l.ending.text ++ more.flatMap RawLine.text := by
    rw [skipBlanks, List.dropWhile_append_of_pos (List.all_eq_true.mp hb)]
    cases hending : l.ending with
    | none => exact absurd hending hl
    | lf | cr | crlf => simp [LineEnding.text, isBlank]
  rw [hskip] at h
  exact afterEnding?_ending hl _ h

end Lines

/-! ## The texts of lines joined -/

section Joined

variable {e : Char} {l : PhysicalLine} {ls : List PhysicalLine} {kept : List Char}

/-- The logical texts of physical lines. -/
def closedTexts (e : Char) (ls : List PhysicalLine) : List (List Char) :=
  (foldLines (fun _ : Unit => [e]) (fun _ l => (l, ())) 0 () ls).1.map LogicalLine.text

/-- The rest of a logical text that is continued on physical lines, and the logical texts behind
it. -/
def openedTexts (e : Char) (ls : List PhysicalLine) : List (List Char) :=
  (continued [e] ls).1.flatMap Piece.kept :: closedTexts e (continued [e] ls).2

/-- The same, if the first line belongs to the logical text whatever it looks like. -/
def insideTexts (e : Char) : List PhysicalLine → List (List Char)
  | [] => [[]]
  | l :: ls =>
    match l.beforeMarker? [e] with
    | none => l.content :: closedTexts e ls
    | some kept => addFront kept (openedTexts e ls)

theorem closedTexts_cons (l : PhysicalLine) (ls : List PhysicalLine) : closedTexts e (l :: ls)
    = ((join [e] l ls).1 :: (join [e] l ls).2.1).flatMap Piece.kept
      :: closedTexts e (join [e] l ls).2.2 := by
  -- the logical lines behind the first one are counted from one on, which their texts do not show
  have hadvance :
      foldLines (fun _ : Unit => [e]) (fun _ l => (l, ())) (0 + 1) () (join [e] l ls).2.2
      = ((foldLines (fun _ : Unit => [e]) (fun _ l => (l, ())) 0 () (join [e] l ls).2.2).1.map
        (LogicalLine.advance 1), ()) :=
    foldLines_advance (fun _ _ => rfl) 0 () _
  unfold closedTexts
  rw [foldLines]
  simp only
  rw [hadvance, List.map_cons, List.map_map]
  rfl

theorem closedTexts_comment (hc : l.isComment = true) :
    closedTexts e (l :: ls) = l.content :: closedTexts e ls := by
  rw [closedTexts_cons, join_comment hc, List.flatMap_singleton]
  rfl

theorem openedTexts_comment (hc : l.isComment = true) :
    openedTexts e (l :: ls) = openedTexts e ls := by
  rw [openedTexts, continued_comment hc]
  rfl

/-- A line that is no comment line belongs to a logical text. -/
theorem closedTexts_of_not_comment (hc : l.isComment = false) :
    closedTexts e (l :: ls) = insideTexts e (l :: ls) := by
  rw [closedTexts_cons, insideTexts]
  cases hm : l.beforeMarker? [e] with
  | none =>
    rw [join_closed hc hm, List.flatMap_singleton]
    rfl
  | some kept =>
    rw [join_marked hc hm]
    rfl

theorem openedTexts_of_not_comment (hc : l.isComment = false) :
    openedTexts e (l :: ls) = insideTexts e (l :: ls) := by
  rw [openedTexts, insideTexts]
  cases hm : l.beforeMarker? [e] with
  | none =>
    rw [continued_closed hc hm, List.flatMap_singleton]
    rfl
  | some kept =>
    rw [continued_marked hc hm]
    rfl

/-- A line that starts with a marker keeps nothing. -/
theorem insideTexts_marker {blanks : List Char} (hb : isAllBlank blanks = true)
    (hl : l.content = e :: blanks) (hne : l.ending ≠ .none) :
    insideTexts e (l :: ls) = openedTexts e ls := by
  have hmarker : l.beforeMarker? [e] = some [] := by
    have hstarts : isMarker [e] (e :: blanks) = true := isMarker_iff.mpr ⟨blanks, hb, rfl⟩
    rw [PhysicalLine.beforeMarker?, if_neg hne, hl, beforeMarker?, if_pos hstarts]
  rw [insideTexts, hmarker]
  rfl

/-- An empty line is not continued. -/
theorem insideTexts_empty (hl : l.content = []) :
    insideTexts e (l :: ls) = [] :: closedTexts e ls := by
  have hmarker : l.beforeMarker? [e] = none := by
    rw [PhysicalLine.beforeMarker?_eq_none_iff, hl]
    exact Or.inr rfl
  rw [insideTexts, hmarker, hl]

/-- A character that does not start the marker of its line is kept. -/
theorem insideTexts_kept {c : Char} {content : List Char} (hl : l.content = c :: content)
    (hm : l.ending ≠ .none → isMarker [e] l.content = false) : insideTexts e (l :: ls)
      = addFront [c] (insideTexts e ({ l with content := content } :: ls)) := by
  have hmarker : l.beforeMarker? [e]
      = (PhysicalLine.beforeMarker? [e] { l with content := content }).map (c :: ·) := by
    unfold PhysicalLine.beforeMarker?
    by_cases hne : l.ending = .none
    · rw [if_pos hne, if_pos hne]
      rfl
    · rw [if_neg hne, if_neg hne, hl, beforeMarker?, if_neg]
      rw [← hl, hm hne]
      decide
  rw [insideTexts, insideTexts, hmarker]
  cases PhysicalLine.beforeMarker? [e] { l with content := content } with
  | none => rw [hl]; rfl
  | some kept => rfl

/-- The texts of lines that are read in a state of the pass. -/
def joinedTexts (e : Char) : State → List PhysicalLine → List (List Char)
  | .closed => closedTexts e
  | .opened => openedTexts e
  | .inside => insideTexts e

end Joined

/-! ## The pass and the lines -/

/-- The first of the lines that are cut from a text. -/
theorem exists_line {s : List Char} {ls : List PhysicalLine}
    (hls : ls.map (·.toRawLine) = RawLine.ofText s) :
    ∃ l rest, ls = l :: rest ∧ l.content = lineText s ∧ l.isComment = isCommentText s
      ∧ (afterLine? s = none ∧ rest = []
        ∨ ∃ next, afterLine? s = some next ∧ rest.map (·.toRawLine) = RawLine.ofText next) := by
  have hcomment := isCommentText_lineText s
  rcases ofText_eq_line s with ⟨hafter, hs⟩ | ⟨ending, next, -, hafter, hs⟩
  · obtain ⟨l, rest, rfl, hl, hrest⟩ := List.map_eq_cons_iff.mp (hls.trans hs)
    have hcontent : l.content = lineText s := congrArg RawLine.content hl
    exact ⟨l, rest, rfl, hcontent, by rw [PhysicalLine.isComment, hcontent, hcomment],
      Or.inl ⟨hafter, List.map_eq_nil_iff.mp hrest⟩⟩
  · obtain ⟨l, rest, rfl, hl, hrest⟩ := List.map_eq_cons_iff.mp (hls.trans hs)
    have hcontent : l.content = lineText s := congrArg RawLine.content hl
    exact ⟨l, rest, rfl, hcontent, by rw [PhysicalLine.isComment, hcontent, hcomment],
      Or.inr ⟨next, hafter, hrest⟩⟩

/-- **In each state, the pass finds what joining finds** in lines that are cut from the text. -/
theorem texts_eq {e : Char} (he : isEndingChar e = false) (state : State) (s : List Char)
    {ls : List PhysicalLine} (hls : ls.map (·.toRawLine) = RawLine.ofText s) :
    texts e state s = joinedTexts e state ls := by
  fun_induction texts e state s generalizing ls with
  | case1 s hcomment ih =>
    obtain ⟨l, rest, rfl, hcontent, hc, hafter⟩ := exists_line hls
    show _ = closedTexts e (l :: rest)
    rw [closedTexts_comment (hc.trans hcomment), hcontent]
    rcases hafter with ⟨hnone, rfl⟩ | ⟨next, hsome, hrest⟩
    · split
      next hsome => rw [hnone] at hsome; cases hsome
      next => simp [closedTexts, foldLines]
    · split
      next next' hsome' =>
        obtain rfl := Option.some.inj (hsome.symm.trans hsome')
        exact congrArg (lineText s :: ·) (ih next hsome hrest)
      next hnone => rw [hnone] at hsome; cases hsome
  | case2 s hcomment ih =>
    obtain ⟨l, rest, rfl, -, hc, -⟩ := exists_line hls
    show _ = closedTexts e (l :: rest)
    rw [closedTexts_of_not_comment (by rw [hc]; simpa using hcomment), ih hls]
    rfl
  | case3 s hcomment next hnext ih =>
    obtain ⟨l, rest, rfl, -, hc, ⟨hnone, -⟩ | ⟨next', hnext', hrest⟩⟩ := exists_line hls
    · rw [hnext] at hnone
      cases hnone
    · obtain rfl := Option.some.inj (hnext.symm.trans hnext')
      show _ = openedTexts e (l :: rest)
      rw [openedTexts_comment (hc.trans hcomment), ih hrest]
      rfl
  | case4 s hcomment hnone =>
    obtain ⟨l, rest, rfl, -, hc, ⟨-, rfl⟩ | ⟨next, hnext, -⟩⟩ := exists_line hls
    · -- the text ends in the comment line, and the logical line ends with it
      show _ = openedTexts e [l]
      rw [openedTexts_comment (hc.trans hcomment)]
      simp [openedTexts, closedTexts, continued, foldLines]
    · rw [hnone] at hnext
      cases hnext
  | case5 s hcomment ih =>
    obtain ⟨l, rest, rfl, -, hc, -⟩ := exists_line hls
    show _ = openedTexts e (l :: rest)
    rw [openedTexts_of_not_comment (by rw [hc]; simpa using hcomment), ih hls]
    rfl
  | case6 =>
    obtain ⟨l, rest, rfl, hl, hrest⟩ := List.map_eq_cons_iff.mp hls
    obtain rfl := List.map_eq_nil_iff.mp hrest
    show _ = insideTexts e [l]
    rw [insideTexts_empty (congrArg RawLine.content hl)]
    simp [closedTexts, foldLines]
  | case7 c s next hnext ih =>
    obtain ⟨blanks, ending, hb, hne, hs⟩ := ofText_of_afterMarker? he hnext
    obtain ⟨l, rest, rfl, hl, hrest⟩ := List.map_eq_cons_iff.mp (hls.trans hs)
    show _ = insideTexts e (l :: rest)
    rw [insideTexts_marker hb (congrArg RawLine.content hl)
      (by rw [congrArg RawLine.ending hl]; exact hne), ih hrest]
    rfl
  | case8 c s _ next hnext ih =>
    obtain ⟨ending, -, hs⟩ := ofText_of_afterEnding? hnext
    obtain ⟨l, rest, rfl, hl, hrest⟩ := List.map_eq_cons_iff.mp (hls.trans hs)
    show _ = insideTexts e (l :: rest)
    rw [insideTexts_empty (congrArg RawLine.content hl), ih hrest]
    rfl
  | case9 c s hmarker hending ih =>
    obtain ⟨first, more, hfirst⟩ := List.exists_cons_of_ne_nil (RawLine.ofText_ne_nil s)
    have hcontent : ∀ d ∈ [c], isEndingChar d = false :=
      List.forall_mem_singleton.mpr (afterEnding?_cons_eq_none_iff.mp hending)
    obtain ⟨hcr, hlf⟩ := not_mem_of_isEndingChar hcontent
    have hs := RawLine.ofText_append hcr hlf hfirst
    obtain ⟨l, rest, rfl, hl, hrest⟩ := List.map_eq_cons_iff.mp (hls.trans hs)
    have hkept : insideTexts e (l :: rest)
        = addFront [c] (insideTexts e ({ l with content := first.content } :: rest)) :=
      insideTexts_kept (congrArg RawLine.content hl) fun hne =>
        isMarker_eq_false_of_afterMarker? (hs.trans (by rw [hl])) hne hmarker
    have hcut : ({ l with content := first.content } :: rest).map (·.toRawLine)
        = RawLine.ofText s := by
      have hends : l.ending = first.ending := by rw [hl]
      rw [hfirst, List.map_cons, hrest, hends]
    show _ = insideTexts e (l :: rest)
    rw [hkept, ih hcut]
    rfl

end OnePass

/-! ## Main statement -/

/--
**Joining lines reads a text as one pass from the left does.**

For every escape character that belongs to no line ending, be it a blank, the logical texts of a
text are those that the pass finds.
-/
theorem map_text_ofText {e : Char} (he : e ≠ '\r' ∧ e ≠ '\n') (s : List Char) :
    (LogicalLine.ofText [e] s).map LogicalLine.text = OnePass.texts e .closed s := by
  have hchar : OnePass.isEndingChar e = false := by
    simp [OnePass.isEndingChar, he.1, he.2]
  exact (OnePass.texts_eq hchar .closed s (PhysicalLine.map_toRawLine_number 0 0 _)).symm

/-- Of two escape characters the last is the marker, blanks and comment lines fall out, and the end
of the text closes a line that a marker kept open. -/
theorem map_text_ofText_backslash :
    let s := "RUN a \\\\ \t\r\n # b\nc\\ \\\r# d\n\r\\\n# e".toList
    ('\\' ≠ '\r' ∧ '\\' ≠ '\n')
      ∧ (LogicalLine.ofText ['\\'] s).map LogicalLine.text = ["RUN a \\c\\ ".toList, []]
      ∧ OnePass.texts '\\' .closed s = ["RUN a \\c\\ ".toList, []] := by
  have hjoined : (LogicalLine.ofText ['\\']
      "RUN a \\\\ \t\r\n # b\nc\\ \\\r# d\n\r\\\n# e".toList).map LogicalLine.text
        = ["RUN a \\c\\ ".toList, []] := by
    decide +kernel
  exact ⟨by decide, hjoined, (map_text_ofText (by decide) _).symm.trans hjoined⟩

end Dockerfile
