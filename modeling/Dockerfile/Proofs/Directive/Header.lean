import Dockerfile.Directive
import Dockerfile.Proofs.Syntax.Grammars

/-!
# The top of a document, all at once

`Header.feed` watches one text and changes the top that the next text meets. For a whole list of
texts there is a closed form. Its front are the texts up to the first one that is neither blank nor
an `escape` directive. The directives are those of the front, the top is open if there is nothing
behind the front, and the first valid value in the front is the escape character.

* `feed_of_blank`, `feed_of_directive`, `feed_of_other`, `feed_of_closed` — one text
* `feedAll_of_open` — the closed form, from any open top on
* `feedAll_eq_front` — what this says about a document from its first line on
-/

namespace Dockerfile

/-! ## Directives -/

/-- The escape character that a text consists of. -/
theorem Escape.ofText?_eq_some_iff {s : List Char} {c : Escape} :
    ofText? s = some c ↔ s = c.text := by
  unfold ofText?
  split
  next h => cases c <;> simp [h, text, char]
  next h =>
    split
    next h' => cases c <;> simp [h', text, char]
    next h' => cases c <;> simp [h, h']

/-- A text is an escape character iff it is one of the two. -/
theorem Escape.isSome_ofText?_iff {s : List Char} :
    (ofText? s).isSome = true ↔ s ∈ [text .backslash, text .backtick] := by
  simp only [Option.isSome_iff_exists, ofText?_eq_some_iff, List.mem_cons, List.not_mem_nil,
    or_false]
  constructor
  · rintro ⟨c, rfl⟩
    cases c
    · exact Or.inl rfl
    · exact Or.inr rfl
  · rintro (h | h)
    · exact ⟨.backslash, h⟩
    · exact ⟨.backtick, h⟩

namespace Directive

variable {s : List Char} {d : Directive}

/-- A directive has the form of a comment. -/
theorem isCommentText_of_parse (h : parse s = some d) : isCommentText s = true := by
  unfold parse at h
  split at h
  next form hform =>
    obtain ⟨rest, _, _, _, hrest, -⟩ := DirectiveForm.parse_eq_ok_iff.mp hform
    simp [isCommentText, hrest]
  next => cases h

theorem parse_of_isAllBlank (hb : isAllBlank s = true) : parse s = none := by
  refine Option.eq_none_iff_forall_ne_some.mpr fun d h => ?_
  have hc := isCommentText_of_parse h
  rw [isCommentText, isAllBlank_iff_skipBlanks.mp hb] at hc
  cases hc

/-- The `escape` directive that a text is. -/
def known? (s : List Char) : Option Directive := (parse s).filter (·.recognized)

theorem known?_eq_some_iff : known? s = some d ↔ parse s = some d ∧ d.recognized = true :=
  Option.filter_eq_some_iff

end Directive

/-! ## One text -/

namespace Header

variable {h : Header} {s : List Char}

/-- The top stays open across the text: it is blank or an `escape` directive. -/
def keepsOpen (s : List Char) : Bool := isAllBlank s || (Directive.known? s).isSome

theorem feed_of_closed (hc : h.isOpen = false) (s : List Char) : h.feed s = (none, h) := by
  simp [feed, hc]

theorem feed_of_blank (hb : isAllBlank s = true) : h.feed s = (none, h) := by
  simp [feed, hb]

theorem feed_of_directive (ho : h.isOpen = true) {d : Directive}
    (hd : Directive.known? s = some d) : h.feed s = (some d,
      { h with directives := h.directives ++ [d], chosen := h.chosen <|> d.escape? }) := by
  have hb : isAllBlank s = false := by
    rw [← Bool.not_eq_true]
    intro hb
    rw [Directive.known?, Directive.parse_of_isAllBlank hb] at hd
    cases hd
  rw [Directive.known?] at hd
  simp [feed, ho, hb, hd]

theorem feed_of_other (ho : h.isOpen = true) (hs : keepsOpen s = false) :
    h.feed s = (none, { h with isOpen := false }) := by
  obtain ⟨hb, hd⟩ := Bool.or_eq_false_iff.mp hs
  rw [Option.isSome_eq_false_iff, Option.isNone_iff_eq_none, Directive.known?] at hd
  simp [feed, ho, hb, hd]

/-- **What a text does to the top**: nothing, to close it, or to add a directive. -/
theorem feed_cases (h : Header) (s : List Char) :
    h.feed s = (none, h) ∨ h.feed s = (none, { h with isOpen := false })
      ∨ ∃ d, h.feed s = (some d,
        { h with directives := h.directives ++ [d], chosen := h.chosen <|> d.escape? }) := by
  unfold feed
  split
  · exact Or.inl rfl
  · split
    next => exact Or.inr (Or.inl rfl)
    next d _ => exact Or.inr (Or.inr ⟨d, rfl⟩)

/-- What is seen is an `escape` directive. -/
theorem known?_of_feed {d : Directive} (hd : (h.feed s).1 = some d) :
    Directive.known? s = some d := by
  unfold feed at hd
  split at hd
  next => cases hd
  next =>
    split at hd
    next => cases hd
    next d' hd' =>
      obtain rfl := Option.some.inj hd
      exact hd'

/-- **A directive is seen iff the top is open and the text is an `escape` directive.** -/
theorem feed_fst_eq_some_iff {d : Directive} :
    (h.feed s).1 = some d ↔ h.isOpen = true ∧ Directive.known? s = some d := by
  constructor
  · intro hd
    refine ⟨?_, known?_of_feed hd⟩
    rw [← Bool.not_eq_false]
    intro hc
    rw [feed_of_closed hc] at hd
    cases hd
  · rintro ⟨ho, hd⟩
    rw [feed_of_directive ho hd]

theorem recognized_of_feed {d : Directive} (hd : (h.feed s).1 = some d) : d.recognized = true :=
  (Directive.known?_eq_some_iff.mp (known?_of_feed hd)).2

theorem parse_of_feed {d : Directive} (hd : (h.feed s).1 = some d) :
    Directive.parse s = some d :=
  (Directive.known?_eq_some_iff.mp (known?_of_feed hd)).1

/-- A line that is neither blank nor a directive closes the top, and nothing else. -/
theorem feed_snd_of_none (hn : (h.feed s).1 = none) (hb : isAllBlank s = false) :
    (h.feed s).2 = { h with isOpen := false } := by
  unfold feed at hn ⊢
  split
  next hc =>
    have hopen : h.isOpen = false := by simpa [hb] using hc
    rw [← hopen]
  next hc =>
    rw [if_neg hc] at hn
    split
    next => rfl
    next d hd =>
      rw [hd] at hn
      simp at hn

/-! ## Many texts -/

/-- Watches texts one after the other: the answers, and the top behind them. -/
def feedAll (h : Header) : List (List Char) → List (Option Directive) × Header
  | [] => ([], h)
  | s :: more =>
    let fed := h.feed s
    let later := feedAll fed.2 more
    (fed.1 :: later.1, later.2)

theorem length_feedAll (h : Header) (texts : List (List Char)) :
    (h.feedAll texts).1.length = texts.length := by
  induction texts generalizing h with
  | nil => rfl
  | cons s more ih => exact congrArg (· + 1) (ih _)

theorem feedAll_append (h : Header) (front behind : List (List Char)) :
    h.feedAll (front ++ behind)
      = ((h.feedAll front).1 ++ ((h.feedAll front).2.feedAll behind).1,
        ((h.feedAll front).2.feedAll behind).2) := by
  induction front generalizing h with
  | nil => rfl
  | cons s front ih => rw [List.cons_append, feedAll, ih, feedAll, List.cons_append]

/-- Once the top is closed, nothing is seen any more and nothing changes. -/
theorem feedAll_of_closed (hc : h.isOpen = false) (texts : List (List Char)) :
    h.feedAll texts = (List.replicate texts.length none, h) := by
  induction texts with
  | nil => rfl
  | cons s more ih =>
    rw [feedAll, feed_of_closed hc, ih]
    rfl

/-- Once an escape character is chosen, it stays. -/
theorem chosen_feedAll {c : Escape} (hc : h.chosen = some c) (texts : List (List Char)) :
    (h.feedAll texts).2.chosen = some c := by
  induction texts generalizing h with
  | nil => exact hc
  | cons s more ih =>
    refine ih ?_
    rcases h.feed_cases s with hf | hf | ⟨d, hf⟩
    · rw [hf, hc]
    · rw [hf, hc]
    · rw [hf, hc]
      rfl

/-- An escape character that has taken the place of another one stays. -/
theorem escape_feedAll_of_ne {texts : List (List Char)}
    (hne : h.escape ≠ (h.feedAll texts).2.escape) (more : List (List Char)) :
    ((h.feedAll texts).2.feedAll more).2.escape = (h.feedAll texts).2.escape := by
  cases hfirst : h.chosen with
  | some c => exact absurd (by rw [escape, escape, hfirst, chosen_feedAll hfirst]) hne
  | none =>
    cases hnext : (h.feedAll texts).2.chosen with
    | some c => rw [escape, escape, hnext, chosen_feedAll hnext]
    | none => exact absurd (by rw [escape, escape, hfirst, hnext]) hne

section Take

variable (h : Header) (texts : List (List Char)) {i j k : Nat}

/-- Watching goes on where it has stopped. -/
theorem feedAll_take (hik : i ≤ k) : (h.feedAll (texts.take k)).2
    = ((h.feedAll (texts.take i)).2.feedAll ((texts.take k).drop i)).2 := by
  have hsplit := List.take_append_drop i (texts.take k)
  rw [List.take_take, Nat.min_eq_left hik] at hsplit
  have happend := feedAll_append h (texts.take i) ((texts.take k).drop i)
  rw [hsplit] at happend
  rw [happend]

/-- **The escape character changes once at most.** -/
theorem escape_feedAll_take (hij : i ≤ j) (hjk : j ≤ k)
    (hne : (h.feedAll (texts.take i)).2.escape ≠ (h.feedAll (texts.take j)).2.escape) :
    (h.feedAll (texts.take k)).2.escape = (h.feedAll (texts.take j)).2.escape := by
  rw [feedAll_take h texts hij] at hne
  have hkept := escape_feedAll_of_ne hne ((texts.take k).drop j)
  rwa [← feedAll_take h texts hij, ← feedAll_take h texts hjk] at hkept

/-- Behind the text that closes the top, no directive is seen. -/
theorem eq_none_of_mem_drop (hc : (h.feedAll (texts.take i)).2.isOpen = false) :
    ∀ a ∈ (h.feedAll texts).1.drop i, a = none := by
  intro a ha
  have happend := feedAll_append h (texts.take i) (texts.drop i)
  rw [List.take_append_drop, feedAll_of_closed hc] at happend
  have hlength : ((h.feedAll (texts.take i)).1).length ≤ i := by
    rw [length_feedAll]
    exact List.length_take_le ..
  rw [happend, List.drop_append, List.drop_eq_nil_of_le hlength, List.nil_append] at ha
  exact List.eq_of_mem_replicate (List.mem_of_mem_drop ha)

end Take

/-- **The closed form.** An open top sees the directives of the front, takes them over, and is open
behind the texts if all of them are front. -/
theorem feedAll_of_open (ho : h.isOpen = true) (texts : List (List Char)) :
    let front := texts.takeWhile keepsOpen
    let seen := front.filterMap Directive.known?
    h.feedAll texts
      = (front.map Directive.known? ++ List.replicate (texts.length - front.length) none,
        ⟨h.directives ++ seen, h.chosen <|> seen.findSome? Directive.escape?,
          texts.all keepsOpen⟩) := by
  induction texts generalizing h with
  | nil => simp [feedAll, ← ho]
  | cons s more ih =>
    by_cases hs : keepsOpen s = true
    · simp only [List.takeWhile_cons_of_pos hs, List.all_cons, hs, Bool.true_and]
      rcases Bool.or_eq_true_iff.mp hs with hb | hd
      · have hnone : Directive.known? s = none := by
          rw [Directive.known?, Directive.parse_of_isAllBlank hb]
          rfl
        simp only [feedAll, feed_of_blank hb, ih ho, List.map_cons, hnone, List.cons_append,
          List.filterMap_cons_none, List.length_cons, Nat.add_sub_add_right]
      · obtain ⟨d, hd⟩ := Option.isSome_iff_exists.mp hd
        have hchosen : ∀ ds : List Directive,
            ((h.chosen <|> d.escape?) <|> ds.findSome? Directive.escape?)
              = (h.chosen <|> (d :: ds).findSome? Directive.escape?) := by
          intro ds
          cases h.chosen <;> cases hd : d.escape? <;> simp [hd]
        have hlater := ih (h := ⟨h.directives ++ [d], h.chosen <|> d.escape?, h.isOpen⟩) ho
        simp only [feedAll, feed_of_directive ho hd, hlater, List.map_cons, hd, List.cons_append,
          List.filterMap_cons_some hd, List.length_cons, Nat.add_sub_add_right, List.append_assoc,
          List.nil_append, hchosen]
    · have hs : keepsOpen s = false := by simpa using hs
      simp only [feedAll, feed_of_other ho hs, feedAll_of_closed, List.takeWhile_cons, hs,
        List.all_cons]
      simp [List.replicate_succ]

/-! ## From the first line on -/

/-- What is seen in a text across which the top stays open. -/
theorem known?_of_keepsOpen (hs : keepsOpen s = true) :
    Directive.known? s = if isAllBlank s then none else Directive.parse s := by
  cases hb : isAllBlank s with
  | true =>
    rw [Directive.known?, Directive.parse_of_isAllBlank hb]
    rfl
  | false =>
    rw [keepsOpen, hb, Bool.false_or] at hs
    obtain ⟨d, hd⟩ := Option.isSome_iff_exists.mp hs
    rw [hd, (Directive.known?_eq_some_iff.mp hd).1]
    rfl

/-- The directives of texts across which the top stays open are the texts that are not blank. -/
theorem map_some_filterMap_known? {front : List (List Char)}
    (h : ∀ s ∈ front, keepsOpen s = true) : (front.filterMap Directive.known?).map some
      = (front.filter fun s => !isAllBlank s).map Directive.parse := by
  induction front with
  | nil => rfl
  | cons s front ih =>
    obtain ⟨hs, hfront⟩ := List.forall_mem_cons.mp h
    have hknown := known?_of_keepsOpen hs
    cases hb : isAllBlank s with
    | true =>
      rw [hb, if_pos rfl] at hknown
      rw [List.filterMap_cons_none hknown, List.filter_cons_of_neg (by simp [hb]), ih hfront]
    | false =>
      rw [keepsOpen, hb, Bool.false_or] at hs
      obtain ⟨d, hd⟩ := Option.isSome_iff_exists.mp hs
      rw [List.filterMap_cons_some hd, List.filter_cons_of_pos (by simp [hb]), List.map_cons,
        List.map_cons, ih hfront, (Directive.known?_eq_some_iff.mp hd).1]

/-- What `escape` directives choose is read off their values. -/
theorem findSome?_escape? {ds : List Directive} (h : ∀ d ∈ ds, d.recognized = true) :
    ds.findSome? Directive.escape? = (ds.map fun d => trim d.value).findSome? Escape.ofText? := by
  induction ds with
  | nil => rfl
  | cons d ds ih =>
    obtain ⟨hd, hds⟩ := List.forall_mem_cons.mp h
    rw [List.map_cons, List.findSome?_cons, List.findSome?_cons, ih hds, Directive.escape?,
      if_pos hd]

/-- The first of some values that is an escape character, or else the backslash. -/
theorem text_findSome?_ofText? (values : List (List Char)) :
    ((values.findSome? Escape.ofText?).getD .backslash).text
      = (values.find? fun v => v ∈ [Escape.text .backslash, Escape.text .backtick]).getD
          (Escape.text .backslash) := by
  induction values with
  | nil => rfl
  | cons v values ih =>
    cases hv : Escape.ofText? v with
    | some c =>
      have hmem := Escape.isSome_ofText?_iff.mp (Option.isSome_of_eq_some hv)
      obtain rfl := Escape.ofText?_eq_some_iff.mp hv
      rw [List.findSome?_cons, hv, List.find?_cons_of_pos (by simpa using hmem)]
      rfl
    | none =>
      have hnot : v ∉ [Escape.text .backslash, Escape.text .backtick] := by
        rw [← Escape.isSome_ofText?_iff, hv]
        exact Bool.false_ne_true
      rw [List.findSome?_cons, hv, List.find?_cons_of_neg (by simpa using hnot)]
      exact ih

/--
**The top of a document in closed form.**

Texts are watched from the first line of a document on. Their front is the longest run from the
first one on of texts that are blank or `escape` directives.

* The top is open behind them if there is nothing behind the front.
* The directives are those of the front, one for each text that is not blank, and only for these
  texts the answer is a directive.
* An escape character is chosen if the value of a directive is one, and the first such value counts.
* So the escape character changes once at most, and behind the closing text nothing changes.
-/
theorem feedAll_eq_front (texts : List (List Char)) :
    let front := texts.takeWhile keepsOpen
    let answers := (initial.feedAll texts).1
    let top : Header := (initial.feedAll texts).2
    let values := top.directives.map fun d => trim d.value
    let valid := [Escape.text .backslash, Escape.text .backtick]
    let after := fun k => (initial.feedAll (texts.take k)).2
    (top.isOpen = true ↔ front = texts) ∧
    top.directives.map some = (front.filter fun s => !isAllBlank s).map Directive.parse ∧
    answers = front.map (fun s => if isAllBlank s then none else Directive.parse s)
      ++ List.replicate (texts.length - front.length) none ∧
    (top.chosen.isSome = true ↔ ∃ v ∈ values, v ∈ valid) ∧
    top.escape.text = (values.find? (· ∈ valid)).getD (Escape.text .backslash) ∧
    (∀ i j k, i ≤ j → j ≤ k → (after i).escape ≠ (after j).escape →
      (after k).escape = (after j).escape) ∧
    ∀ i k, i ≤ k → (after i).isOpen = false →
      after k = after i ∧ ∀ a ∈ answers.drop i, a = none := by
  intro front answers top values valid after
  have hclosed : initial.feedAll texts
      = (front.map Directive.known? ++ List.replicate (texts.length - front.length) none,
        ⟨front.filterMap Directive.known?,
          (front.filterMap Directive.known?).findSome? Directive.escape?,
          texts.all keepsOpen⟩) := feedAll_of_open rfl texts
  have hfront : ∀ s ∈ front, keepsOpen s = true := fun s hs => List.mem_takeWhile_imp hs
  have hdirectives : top.directives = front.filterMap Directive.known? := by
    show (initial.feedAll texts).2.directives = _
    rw [hclosed]
  have hchosen : top.chosen = values.findSome? Escape.ofText? := by
    have hrecognized : ∀ d ∈ front.filterMap Directive.known?, d.recognized = true := by
      intro d hd
      obtain ⟨s, -, hs⟩ := List.mem_filterMap.mp hd
      exact (Directive.known?_eq_some_iff.mp hs).2
    show (initial.feedAll texts).2.chosen = (top.directives.map _).findSome? _
    rw [hdirectives, ← findSome?_escape? hrecognized, hclosed]
  refine ⟨?_, ?_, ?_, ?_, ?_, ?_, ?_⟩
  · show (initial.feedAll texts).2.isOpen = true ↔ _
    rw [hclosed, List.takeWhile_eq_self_iff]
    exact List.all_eq_true
  · rw [hdirectives]
    exact map_some_filterMap_known? hfront
  · show (initial.feedAll texts).1 = _
    rw [hclosed]
    exact congrArg (· ++ _) (List.map_congr_left fun s hs => known?_of_keepsOpen (hfront s hs))
  · rw [hchosen, List.findSome?_isSome_iff]
    exact exists_congr fun v => and_congr_right fun _ => Escape.isSome_ofText?_iff
  · rw [escape, hchosen]
    exact text_findSome?_ofText? values
  · exact fun i j k hij hjk hne => escape_feedAll_take initial texts hij hjk hne
  · intro i k hik hc
    refine ⟨?_, eq_none_of_mem_drop initial texts hc⟩
    show (initial.feedAll (texts.take k)).2 = _
    rw [feedAll_take initial texts hik, feedAll_of_closed hc]

/-- A directive without effect, a blank line, one that chooses the backtick and one that comes too
late for the backslash; the instruction closes the top, and the last line is no directive. -/
theorem feedAll_eq_front_second_value :
    let texts := ["#escape=x".toList, [], "# Escape= ` ".toList, "#escape=\\".toList,
      "RUN a".toList, "#escape=\\".toList]
    let top : Header := (initial.feedAll texts).2
    top.escape.text = ['\x60'] ∧ top.directives.length = 3 ∧ top.isOpen = false
      ∧ (initial.feedAll (texts.take 6)).2 = (initial.feedAll (texts.take 5)).2 := by
  intro texts top
  obtain ⟨-, -, -, -, hescape, -, hfrozen⟩ := feedAll_eq_front texts
  refine ⟨hescape.trans ?_, ?_, ?_, (hfrozen 5 6 (by decide) ?_).1⟩
  · decide +kernel
  · decide +kernel
  · decide +kernel
  · decide +kernel

end Header

end Dockerfile
