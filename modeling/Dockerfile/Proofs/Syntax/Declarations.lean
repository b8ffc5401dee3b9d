import Dockerfile.Proofs.Syntax.Values

/-!
# The grammars of declarations

A declaration starts with a name and ends at a gap: a name without an equals sign cannot stand in
front of one, and a value goes up to the next gap. Between two declarations there are blanks, and
the blanks at the end are followed by nothing. So the character behind each part tells how to go on.

* `Grammar.exists_parseAll_of_derives`, `Grammar.exists_derives_of_parseAll` — declarations with
  blanks in between, of whatever kinds are allowed
* `Grammar.derives_arg_iff` — the arguments of `ARG`
* `Grammar.derives_env_iff` — the arguments of `ENV`
-/

namespace Dockerfile

/-! ## One item -/

theorem isBlank_of_isVariableChar {c : Char} (h : isVariableChar c = true) : isBlank c = false :=
  isBlank_of_class rfl rfl h

/-- Behind a name there is an equals sign or a gap. -/
theorem atGap_dropWhile_isVariableChar {s : List Char}
    (h : (s.dropWhile isVariableChar).head? ≠ some '=') : AtGap (s.dropWhile isVariableChar) := by
  intro c hc
  have hnot := List.head?_dropWhile_not isVariableChar s
  rw [hc] at hnot
  have hne : c ≠ '=' := fun heq => h (heq ▸ hc)
  simpa [isVariableChar, hne] using hnot

namespace Item

/-- The derivation of the rule of an item. -/
def derivation (bareRule equalsRule : Rule) (i : Item) : Derivation :=
  match i.value with
  | none => .rule bareRule (.word (.kept .variableName) i.name)
  | some chunks => .rule equalsRule <| .all
    [.word (.kept .variableName) i.name, .word .equals ['='], Chunk.valueDerivation chunks]

theorem source_derivation (bareRule equalsRule : Rule) (i : Item) :
    (i.derivation bareRule equalsRule).source = i.body := by
  unfold derivation body
  cases i.value with
  | none => exact (List.append_nil _).symm
  | some chunks =>
    simp only [Derivation.all, Derivation.source, Chunk.source_valueDerivation, List.append_nil]
    rfl

theorem trees_derivation (bareRule equalsRule : Rule) (start : Nat) (i : Item) :
    (i.derivation bareRule equalsRule).trees start = [i.tree bareRule equalsRule start] := by
  have hsource := i.source_derivation bareRule equalsRule
  unfold tree
  rw [← hsource]
  unfold derivation
  cases hvalue : i.value with
  | none => rfl
  | some chunks =>
    simp only [Derivation.all, Derivation.trees, Derivation.wordTrees, Derivation.source,
      Chunk.trees_valueDerivation, List.append_nil, List.nil_append, List.length_singleton,
      Option.isSome_some, if_true, Option.map_some, Option.getD_some]
    rfl

variable {bare : Bool} {s rest : List Char} {i : Item}

/-- What is read as an item. -/
theorem parse_eq_ok_iff : parse bare s = .ok (i, rest)
    ↔ (skipBlanks s).takeWhile isVariableChar ≠ []
      ∧ ((∃ value chunks, (skipBlanks s).dropWhile isVariableChar = '=' :: value
          ∧ Chunk.readAll? value = some (chunks, rest)
          ∧ i = ⟨leadingBlanks s, (skipBlanks s).takeWhile isVariableChar, some chunks⟩)
        ∨ bare = true ∧ rest.head? ≠ some '=' ∧ (skipBlanks s).dropWhile isVariableChar = rest
          ∧ i = ⟨leadingBlanks s, (skipBlanks s).takeWhile isVariableChar, none⟩) := by
  constructor
  · intro h
    unfold parse at h
    simp only at h
    split at h
    next => cases h
    next hne =>
      refine ⟨by simpa using hne, ?_⟩
      split at h
      next value hvalue =>
        split at h
        next chunks after hread =>
          obtain ⟨rfl, rfl⟩ := Prod.mk.inj (Except.ok.inj h)
          exact Or.inl ⟨value, chunks, hvalue, hread, rfl⟩
        next => cases h
      next rest' hnot =>
        split at h
        next hbare =>
          obtain ⟨rfl, rfl⟩ := Prod.mk.inj (Except.ok.inj h)
          refine Or.inr ⟨hbare, fun hhead => ?_, rfl, rfl⟩
          obtain ⟨value, hvalue⟩ := List.head?_eq_some_iff.mp hhead
          exact hnot value hvalue
        next => cases h
  · rintro ⟨hne, ⟨value, chunks, hvalue, hread, rfl⟩ | ⟨rfl, hhead, hrest, rfl⟩⟩
    · unfold parse
      simp only
      rw [if_neg (by simpa using hne), hvalue]
      simp only [hread]
    · unfold parse
      simp only
      rw [if_neg (by simpa using hne), hrest]
      split
      next => exact absurd rfl hhead
      next => rfl

/-- An item stands behind the blanks in front of it. -/
theorem gap_of_parse (h : parse bare s = .ok (i, rest)) : i.gap = leadingBlanks s := by
  obtain ⟨-, ⟨value, chunks, -, -, rfl⟩ | ⟨-, -, -, rfl⟩⟩ := parse_eq_ok_iff.mp h <;> rfl

/-- An item ends at a gap. -/
theorem atGap_of_parse (h : parse bare s = .ok (i, rest)) : AtGap rest := by
  obtain ⟨-, ⟨value, chunks, -, hread, -⟩ | ⟨-, hhead, hrest, -⟩⟩ := parse_eq_ok_iff.mp h
  · exact Chunk.atGap_of_readAll? hread
  · rw [← hrest] at hhead ⊢
    exact atGap_dropWhile_isVariableChar hhead

theorem name_ne_nil_of_parse (h : parse bare s = .ok (i, rest)) : i.name ≠ [] := by
  obtain ⟨hne, ⟨value, chunks, -, -, rfl⟩ | ⟨-, -, -, rfl⟩⟩ := parse_eq_ok_iff.mp h <;> exact hne

theorem isVariableChar_of_parse (h : parse bare s = .ok (i, rest)) :
    ∀ c ∈ i.name, isVariableChar c = true := by
  obtain ⟨-, ⟨value, chunks, -, -, rfl⟩ | ⟨-, -, -, rfl⟩⟩ := parse_eq_ok_iff.mp h <;>
    exact fun c hc => List.mem_takeWhile_imp hc

/-- An item and what is behind it are the text. -/
theorem append_of_parse (h : parse bare s = .ok (i, rest)) : i.source ++ rest = s := by
  have hgap := leadingBlanks_append_skipBlanks s
  have hname := List.takeWhile_append_dropWhile (p := isVariableChar) (l := skipBlanks s)
  obtain ⟨-, ⟨value, chunks, hvalue, hread, rfl⟩ | ⟨-, -, hrest, rfl⟩⟩ := parse_eq_ok_iff.mp h
  · rw [hvalue, ← Chunk.append_of_readAll? hread] at hname
    simp only [source, body, List.append_assoc, List.cons_append, hname, hgap]
  · rw [hrest] at hname
    simp only [source, body, List.append_nil, List.append_assoc, hname, hgap]

/-! ### Many items -/

variable {items : List Item} {trail : List Char}

theorem parseAll_of_last (h : parse bare s = .ok (i, rest)) (hb : isAllBlank rest = true) :
    parseAll bare s = .ok ([i], rest) := by
  rw [parseAll]
  split
  next hfail => rw [h] at hfail; cases hfail
  next i' rest' hok =>
    rw [h] at hok
    obtain ⟨rfl, rfl⟩ := Prod.mk.inj (Except.ok.inj hok)
    rw [if_pos hb]

theorem parseAll_of_more (h : parse bare s = .ok (i, rest)) (hb : isAllBlank rest = false)
    (hmore : parseAll bare rest = .ok (items, trail)) :
    parseAll bare s = .ok (i :: items, trail) := by
  rw [parseAll]
  split
  next hfail => rw [h] at hfail; cases hfail
  next i' rest' hok =>
    rw [h] at hok
    obtain ⟨rfl, rfl⟩ := Prod.mk.inj (Except.ok.inj hok)
    rw [if_neg (by simp [hb]), hmore]

/-- Behind the first item the text ends, or items follow. -/
theorem exists_of_parseAll (h : parseAll bare s = .ok (items, trail)) :
    ∃ i rest more, items = i :: more ∧ parse bare s = .ok (i, rest) ∧ isAllBlank trail = true
      ∧ (more = [] ∧ rest = trail
        ∨ isAllBlank rest = false ∧ parseAll bare rest = .ok (more, trail)) := by
  fun_induction parseAll bare s generalizing items trail with
  | case1 => cases h
  | case2 s i rest hparse hb =>
    obtain ⟨rfl, rfl⟩ := Prod.mk.inj (Except.ok.inj h)
    exact ⟨i, rest, [], rfl, hparse, hb, Or.inl ⟨rfl, rfl⟩⟩
  | case3 => cases h
  | case4 s i rest hparse hb more after hmore ih =>
    obtain ⟨rfl, rfl⟩ := Prod.mk.inj (Except.ok.inj h)
    obtain ⟨_, _, _, -, -, htrail, -⟩ := ih hmore
    exact ⟨i, rest, more, rfl, hparse, htrail, Or.inr ⟨by simpa using hb, hmore⟩⟩

theorem parseAll_singleton_iff : parseAll bare s = .ok ([i], trail)
    ↔ parse bare s = .ok (i, trail) ∧ isAllBlank trail = true := by
  constructor
  · intro h
    obtain ⟨i', rest, more, heq, hparse, hb, ⟨-, rfl⟩ | ⟨-, hmore⟩⟩ := exists_of_parseAll h
    · obtain ⟨rfl, -⟩ := List.cons.inj heq
      exact ⟨hparse, hb⟩
    · obtain ⟨-, rfl⟩ := List.cons.inj heq
      obtain ⟨_, _, _, hnil, -⟩ := exists_of_parseAll hmore
      cases hnil
  · rintro ⟨hparse, hb⟩
    exact parseAll_of_last hparse hb

theorem parseAll_cons_cons_iff {j : Item} : parseAll bare s = .ok (i :: j :: items, trail)
    ↔ ∃ rest, parse bare s = .ok (i, rest) ∧ isAllBlank rest = false
      ∧ parseAll bare rest = .ok (j :: items, trail) := by
  constructor
  · intro h
    obtain ⟨i', rest, more, heq, hparse, -, ⟨rfl, -⟩ | ⟨hb, hmore⟩⟩ := exists_of_parseAll h
    · cases heq
    · obtain ⟨rfl, rfl⟩ := List.cons.inj heq
      exact ⟨rest, hparse, hb, hmore⟩
  · rintro ⟨rest, hparse, hb, hmore⟩
    exact parseAll_of_more hparse hb hmore

theorem gap_of_parseAll (h : parseAll bare s = .ok (i :: items, trail)) :
    i.gap = leadingBlanks s := by
  obtain ⟨i', _, _, heq, hparse, -⟩ := exists_of_parseAll h
  obtain ⟨rfl, -⟩ := List.cons.inj heq
  exact gap_of_parse hparse

/-- Items and the blanks at the end are the text. -/
theorem append_of_parseAll (h : parseAll bare s = .ok (items, trail)) :
    items.flatMap source ++ trail = s := by
  fun_induction parseAll bare s generalizing items trail with
  | case1 => cases h
  | case2 s i rest hparse =>
    obtain ⟨rfl, rfl⟩ := Prod.mk.inj (Except.ok.inj h)
    rw [List.flatMap_singleton, append_of_parse hparse]
  | case3 => cases h
  | case4 s i rest hparse _ more after hmore ih =>
    obtain ⟨rfl, rfl⟩ := Prod.mk.inj (Except.ok.inj h)
    rw [List.flatMap_cons, List.append_assoc, ih hmore, append_of_parse hparse]

/-- What holds of each item that is read holds of all of them. -/
theorem forall_of_parseAll {p : Item → Prop}
    (hp : ∀ {s i rest}, parse bare s = .ok (i, rest) → p i)
    (h : parseAll bare s = .ok (items, trail)) : ∀ i ∈ items, p i := by
  fun_induction parseAll bare s generalizing items trail with
  | case1 => cases h
  | case2 s i rest hparse =>
    obtain ⟨rfl, -⟩ := Prod.mk.inj (Except.ok.inj h)
    exact List.forall_mem_singleton.mpr (hp hparse)
  | case3 => cases h
  | case4 s i rest hparse _ more after hmore ih =>
    obtain ⟨rfl, -⟩ := Prod.mk.inj (Except.ok.inj h)
    exact List.forall_mem_cons.mpr ⟨hp hparse, ih hmore⟩

/-- The derivation of further items, given that of each. -/
def moreDerivation (derivation : Item → Derivation) : List Item → Derivation
  | [] => .stop
  | i :: more => .more (.seq (.word .blanks i.gap) (derivation i)) (moreDerivation derivation more)

section Derivation

variable {bareRule equalsRule : Rule} {derivation : Item → Derivation}
  (hsource : ∀ i, (derivation i).source = i.body)
  (htrees : ∀ start i, (derivation i).trees start = [i.tree bareRule equalsRule start])

include hsource

theorem source_moreDerivation (items : List Item) :
    (moreDerivation derivation items).source = items.flatMap source := by
  induction items with
  | nil => rfl
  | cons i items ih =>
    rw [moreDerivation, Derivation.source, Derivation.source, Derivation.source, hsource, ih]
    rfl

include htrees

theorem trees_moreDerivation (start : Nat) (items : List Item) :
    (moreDerivation derivation items).trees start
      = (located start items).map fun x => x.2.tree bareRule equalsRule x.1 := by
  induction items generalizing start with
  | nil => rfl
  | cons i items ih =>
    rw [moreDerivation, Derivation.trees, Derivation.trees, htrees, ih, Derivation.source,
      Derivation.source, hsource]
    rfl

/-- The trees of items at the start of a text. -/
theorem trees_cons (i : Item) (more : List Item) :
    (derivation i).trees i.gap.length
        ++ (moreDerivation derivation more).trees (i.gap.length + i.body.length)
      = (located 0 (i :: more)).map fun x => x.2.tree bareRule equalsRule x.1 := by
  rw [htrees, trees_moreDerivation hsource htrees, located, List.map_cons, Nat.zero_add,
    Nat.zero_add, source, List.length_append]
  rfl

end Derivation

end Item

/-! ## Grammars of items -/

namespace Grammar

variable {s rest : List Char} {d : Derivation}

/-- The derivations of a name with an equals sign and perhaps a value, up to a gap. -/
theorem derives_pair_iff {r : Rule} (hrest : AtGap rest) : Derives (pair r) s d rest
    ↔ ∃ value chunks, s.takeWhile isVariableChar ≠ []
      ∧ s.dropWhile isVariableChar = '=' :: value ∧ Chunk.readAll? value = some (chunks, rest)
      ∧ d = .rule r (.all [.word (.kept .variableName) (s.takeWhile isVariableChar),
        .word .equals ['='], Chunk.valueDerivation chunks]) := by
  constructor
  · intro h
    obtain ⟨e, h₀, rfl⟩ := derives_rule_iff.mp h
    obtain ⟨dname, s₁, e₁, hname, h₁, rfl⟩ := derives_seq_iff.mp h₀
    obtain ⟨dequals, value, e₂, hequals, h₂, rfl⟩ := derives_seq_iff.mp h₁
    obtain ⟨dvalue, s₃, e₃, hvalue, hend, rfl⟩ := derives_seq_iff.mp h₂
    obtain ⟨rfl, rfl⟩ := derives_empty_iff.mp hend
    obtain ⟨chunks, hread, rfl⟩ := (derives_optional_value_iff hrest).mp hvalue
    obtain ⟨rfl, rfl⟩ := derives_equals_iff.mp hequals
    obtain ⟨hne, hstop, rfl⟩ := (derives_run_iff (w := .kept .variableName) rfl).mp hname
    exact ⟨value, chunks, hne, hstop.symm, hread, rfl⟩
  · rintro ⟨value, chunks, hne, hstop, hread, rfl⟩
    have hname := (derives_run_iff (w := .kept .variableName) rfl).mpr ⟨hne, rfl, rfl⟩
    rw [hstop] at hname
    have hvalue := (derives_optional_value_iff hrest).mpr ⟨chunks, hread, rfl⟩
    exact .rule (.seq hname (.seq (derives_equals_iff.mpr ⟨rfl, rfl⟩) (.seq hvalue .empty)))

/-- A grammar for one declaration reads what `Item.parse` reads, and nothing at a gap. -/
structure ReadsItem (a : Grammar) (bare : Bool) (derivation : Item → Derivation) : Prop where
  atWord : ∀ {s d rest}, Derives a s d rest → s ≠ [] ∧ AtWord s
  iff : ∀ {s d rest}, AtGap rest → (Derives a (skipBlanks s) d rest
    ↔ ∃ i, Item.parse bare s = .ok (i, rest) ∧ d = derivation i)

section Items

variable {a : Grammar} {bare : Bool} {derivation : Item → Derivation}
  (ha : ReadsItem a bare derivation)

include ha

/-- **Declarations that are derived are read.** Blanks are the start of a further declaration, since
something follows them. -/
theorem exists_parseAll_of_derives (hrest : isAllBlank rest = true) {mid : List Char}
    {da db : Derivation} (hfirst : Derives a (skipBlanks s) da mid)
    (hmore : Derives (.many (.seq blanks a)) mid db rest) :
    ∃ i more, Item.parseAll bare s = .ok (i :: more, rest) ∧ da = derivation i
      ∧ db = Item.moreDerivation derivation more := by
  induction db generalizing s da mid with
  | more b₁ b₂ _ ih =>
    rcases derives_many_iff.mp hmore with ⟨heq, -⟩ | ⟨e₁, next, e₂, hnext, hmore', heq⟩
    · cases heq
    · obtain ⟨rfl, rfl⟩ := Derivation.more.inj heq
      obtain ⟨dgap, start, ditem, hgap, hitem, rfl⟩ := derives_seq_iff.mp hnext
      obtain ⟨hne, rfl, rfl⟩ := derives_blanks_iff.mp hgap
      obtain ⟨i, hparse, rfl⟩ := (ha.iff (leadingBlanks_ne_nil_iff.mp hne).2).mp hfirst
      obtain ⟨j, more, hall, rfl, rfl⟩ := ih hitem hmore'
      have hb : isAllBlank mid = false := by
        rw [← Bool.not_eq_true, isAllBlank_iff_skipBlanks]
        exact (ha.atWord hitem).1
      refine ⟨i, j :: more, Item.parseAll_of_more hparse hb hall, rfl, ?_⟩
      rw [Item.moreDerivation, Item.gap_of_parseAll hall]
  | _ =>
    rcases derives_many_iff.mp hmore with ⟨heq, rfl⟩ | ⟨e₁, next, e₂, -, -, heq⟩
    · obtain ⟨i, hparse, rfl⟩ := (ha.iff (AtGap.of_isAllBlank hrest)).mp hfirst
      exact ⟨i, [], Item.parseAll_of_last hparse hrest, rfl, heq⟩
    · cases heq

/-- **Declarations that are read are derived.** -/
theorem exists_derives_of_parseAll {i : Item} {more : List Item}
    (h : Item.parseAll bare s = .ok (i :: more, rest)) :
    ∃ mid, Derives a (skipBlanks s) (derivation i) mid
      ∧ Derives (.many (.seq blanks a)) mid (Item.moreDerivation derivation more) rest := by
  induction more generalizing s i with
  | nil =>
    obtain ⟨hparse, hb⟩ := Item.parseAll_singleton_iff.mp h
    exact ⟨rest, (ha.iff (AtGap.of_isAllBlank hb)).mpr ⟨i, hparse, rfl⟩, .stop⟩
  | cons j more ih =>
    obtain ⟨next, hparse, hb, hmore⟩ := Item.parseAll_cons_cons_iff.mp h
    have hend := Item.atGap_of_parse hparse
    have hgap : leadingBlanks next ≠ [] := by
      refine leadingBlanks_ne_nil_iff.mpr ⟨fun hnil => ?_, hend⟩
      rw [hnil] at hb
      cases hb
    obtain ⟨mid, hitem, hitems⟩ := ih hmore
    refine ⟨next, (ha.iff hend).mpr ⟨i, hparse, rfl⟩, ?_⟩
    rw [Item.moreDerivation, Item.gap_of_parseAll hmore]
    exact .more (.seq (derives_blanks_iff.mpr ⟨hgap, rfl, rfl⟩) hitem) hitems

end Items

/-! ### The two grammars of one declaration -/

theorem atWord_of_name (h : Derives (token .variableName) s d rest) : s ≠ [] ∧ AtWord s := by
  obtain ⟨hne, -, -⟩ := (derives_run_iff (w := .kept .variableName) (p := isVariableChar) rfl).mp h
  refine ⟨fun hnil => hne (by rw [hnil]; rfl), atWord_of_takeWhile (fun c hc => ?_) hne⟩
  simp only [isVariableChar, Bool.and_eq_true, Bool.not_eq_true'] at hc
  exact hc.1

theorem atWord_of_pair {r : Rule} (h : Derives (pair r) s d rest) : s ≠ [] ∧ AtWord s := by
  obtain ⟨e, h₀, rfl⟩ := derives_rule_iff.mp h
  obtain ⟨dname, s₁, e₁, hname, -, rfl⟩ := derives_seq_iff.mp h₀
  exact atWord_of_name hname

/-- In front of a gap a name stands alone, or an equals sign and a value follow it. -/
theorem readsItem_env :
    ReadsItem (pair .envEquals) false (Item.derivation .envEquals .envEquals) where
  atWord := atWord_of_pair
  iff hrest := by
    rw [derives_pair_iff hrest]
    constructor
    · rintro ⟨value, chunks, hne, hstop, hread, rfl⟩
      exact ⟨_, Item.parse_eq_ok_iff.mpr ⟨hne, Or.inl ⟨value, chunks, hstop, hread, rfl⟩⟩, rfl⟩
    · rintro ⟨i, hparse, rfl⟩
      obtain ⟨hne, ⟨value, chunks, hstop, hread, rfl⟩ | ⟨hbare, -⟩⟩ :=
        Item.parse_eq_ok_iff.mp hparse
      · exact ⟨value, chunks, hne, hstop, hread, rfl⟩
      · cases hbare

end Grammar

/-- The derivation of an item of `ARG`. -/
def Item.argDerivation (i : Item) : Derivation :=
  if i.value.isSome then .right (i.derivation .argBare .argEquals)
  else .left (i.derivation .argBare .argEquals)

theorem Item.source_argDerivation (i : Item) : i.argDerivation.source = i.body := by
  unfold argDerivation
  split <;> exact source_derivation _ _ _

theorem Item.trees_argDerivation (start : Nat) (i : Item) :
    i.argDerivation.trees start = [i.tree .argBare .argEquals start] := by
  unfold argDerivation
  split <;> exact trees_derivation _ _ _ _

namespace Grammar

variable {s rest : List Char} {d : Derivation}

/-- In front of a gap a name stands alone, or an equals sign and perhaps a value follow it. -/
theorem readsItem_arg : ReadsItem argDeclaration true Item.argDerivation where
  atWord h := by
    rcases derives_either_iff.mp h with ⟨e, hbare, rfl⟩ | ⟨e, hpair, rfl⟩
    · obtain ⟨e', hname, rfl⟩ := derives_rule_iff.mp hbare
      exact atWord_of_name hname
    · exact atWord_of_pair hpair
  iff {s d rest} hrest := by
    rw [argDeclaration, derives_either_iff]
    constructor
    · rintro (⟨e, hbare, rfl⟩ | ⟨e, hpair, rfl⟩)
      · obtain ⟨e', hname, rfl⟩ := derives_rule_iff.mp hbare
        obtain ⟨hne, hstop, rfl⟩ := (derives_run_iff (w := .kept .variableName) rfl).mp hname
        have hhead : rest.head? ≠ some '=' := fun hhead => absurd (hrest '=' hhead) (by decide)
        exact ⟨_, Item.parse_eq_ok_iff.mpr ⟨hne, Or.inr ⟨rfl, hhead, hstop.symm, rfl⟩⟩, rfl⟩
      · obtain ⟨value, chunks, hne, hstop, hread, rfl⟩ := (derives_pair_iff hrest).mp hpair
        exact ⟨_, Item.parse_eq_ok_iff.mpr ⟨hne, Or.inl ⟨value, chunks, hstop, hread, rfl⟩⟩, rfl⟩
    · rintro ⟨i, hparse, rfl⟩
      obtain ⟨hne, ⟨value, chunks, hstop, hread, rfl⟩ | ⟨-, -, hstop, rfl⟩⟩ :=
        Item.parse_eq_ok_iff.mp hparse
      · exact Or.inr ⟨_, (derives_pair_iff hrest).mpr ⟨value, chunks, hne, hstop, hread, rfl⟩, rfl⟩
      · have hname := (derives_run_iff (w := .kept .variableName) rfl).mpr ⟨hne, hstop.symm, rfl⟩
        exact Or.inl ⟨_, .rule hname, rfl⟩

end Grammar

/-! ## Arguments of `ARG` -/

namespace ArgForm

/-- The derivation of the arguments of `ARG`. There is at least one item. -/
def derivation (f : ArgForm) : Derivation :=
  match f.items with
  | [] => .empty
  | i :: more => .rule .start <| .all
    [.optionalWord .blanks i.gap, i.argDerivation, Item.moreDerivation Item.argDerivation more,
      .optionalWord .blanks f.trail]

theorem parse_eq_ok_iff {s : List Char} {f : ArgForm} :
    parse s = .ok f ↔ Item.parseAll true s = .ok (f.items, f.trail) := by
  unfold parse
  cases h : Item.parseAll true s with
  | error failure => simp [Except.map]
  | ok x =>
    obtain ⟨items, trail⟩ := f
    simp [Except.map, Prod.ext_iff]

theorem trees_derivation {s : List Char} {f : ArgForm} (h : parse s = .ok f) :
    f.derivation.trees 0 = [f.tree] := by
  obtain ⟨i, rest, more, hitems, -⟩ := Item.exists_of_parseAll (parse_eq_ok_iff.mp h)
  obtain ⟨items, trail⟩ := f
  obtain rfl : items = i :: more := hitems
  have hitems := Item.trees_cons Item.source_argDerivation Item.trees_argDerivation i more
  simp only [derivation, Derivation.all, Derivation.trees, Derivation.trees_optionalBlanks,
    Derivation.source, Derivation.source_optionalWord, Item.source_argDerivation,
    Item.source_moreDerivation Item.source_argDerivation, hitems, List.nil_append,
    List.append_nil, Nat.zero_add, tree, source, List.flatMap_cons, Item.source, List.append_assoc]

end ArgForm

/-- **The derivations of a text as the arguments of `ARG`** are those of the form that is read. -/
theorem Grammar.derives_arg_iff {s : List Char} {d : Derivation} :
    Derives arg s d [] ↔ ∃ f, ArgForm.parse s = .ok f ∧ d = f.derivation := by
  constructor
  · intro h
    obtain ⟨e, h₀, rfl⟩ := derives_rule_iff.mp h
    obtain ⟨dlead, s₁, e₁, hlead, h₁, rfl⟩ := derives_seq_iff.mp h₀
    obtain ⟨dfirst, s₂, e₂, hfirst, h₂, rfl⟩ := derives_seq_iff.mp h₁
    obtain ⟨dmore, trail, e₃, hmore, hend, rfl⟩ := derives_seq_iff.mp h₂
    obtain ⟨hblank, rfl⟩ := derives_last_blanks_iff.mp hend
    obtain ⟨rfl, rfl⟩ := (derives_optional_blanks_iff (readsItem_arg.atWord hfirst).2).mp hlead
    obtain ⟨i, more, hall, rfl, rfl⟩ :=
      exists_parseAll_of_derives readsItem_arg hblank hfirst hmore
    refine ⟨⟨i :: more, trail⟩, ArgForm.parse_eq_ok_iff.mpr hall, ?_⟩
    rw [← Item.gap_of_parseAll hall]
    rfl
  · rintro ⟨⟨items, trail⟩, hf, rfl⟩
    have hall := ArgForm.parse_eq_ok_iff.mp hf
    obtain ⟨i, rest, more, rfl, -, hblank, -⟩ := Item.exists_of_parseAll hall
    obtain ⟨mid, hfirst, hmore⟩ := exists_derives_of_parseAll readsItem_arg hall
    have hlead := (derives_optional_blanks_iff (s := s) (atWord_skipBlanks s)).mpr ⟨rfl, rfl⟩
    rw [← Item.gap_of_parseAll hall] at hlead
    exact .rule (.seq hlead (.seq hfirst (.seq hmore (derives_last_blanks_iff.mpr ⟨hblank, rfl⟩))))

/-! ## Arguments of `ENV` -/

namespace EnvForm

/-- The derivation of the arguments of `ENV`. There is at least one pair, if there are pairs. -/
def derivation : EnvForm → Derivation
  | .rest lead name gap text trail => .rule .start <| .all
    [.optionalWord .blanks lead, .left <| .rule .envSpace <| .all
      [.word (.kept .variableName) name, .word .blanks gap, .word (.kept .environmentRest) text],
      .optionalWord .blanks trail]
  | .pairs [] _ => .empty
  | .pairs (i :: more) trail => .rule .start <| .all
    [.optionalWord .blanks i.gap, .right <| .seq (i.derivation .envEquals .envEquals)
      (Item.moreDerivation (Item.derivation .envEquals .envEquals) more),
      .optionalWord .blanks trail]

/-- What is read as the arguments of `ENV`. -/
theorem parse_eq_ok_iff {s : List Char} {f : EnvForm} : parse s = .ok f
    ↔ (∃ items trail, Item.parseAll false s = .ok (items, trail) ∧ f = .pairs items trail)
      ∨ ∃ name after text trail, name = (skipBlanks s).takeWhile isVariableChar
        ∧ after = (skipBlanks s).dropWhile isVariableChar ∧ name ≠ [] ∧ after.head? ≠ some '='
        ∧ argumentRun (skipBlanks after) = some (text, trail) ∧ isAllBlank trail = true
        ∧ f = .rest (leadingBlanks s) name (leadingBlanks after) text trail := by
  constructor
  · intro h
    unfold parse at h
    simp only at h
    split at h
    next => cases h
    next hne =>
      split at h
      next hhead =>
        cases hall : Item.parseAll false s with
        | error failure => rw [hall] at h; cases h
        | ok x =>
          rw [hall] at h
          exact Or.inl ⟨x.1, x.2, rfl, (Except.ok.inj h).symm⟩
      next hhead =>
        split at h
        next => cases h
        next text trail hrun =>
          split at h
          next hblank =>
            exact Or.inr ⟨_, _, text, trail, rfl, rfl, by simpa using hne, by simpa using hhead,
              hrun, hblank, (Except.ok.inj h).symm⟩
          next => cases h
  · rintro (⟨items, trail, hall, rfl⟩
      | ⟨name, after, text, trail, rfl, rfl, hne, hhead, hrun, hblank, rfl⟩)
    · obtain ⟨i, rest, more, -, hparse, -⟩ := Item.exists_of_parseAll hall
      obtain ⟨hne, ⟨value, chunks, hstop, -⟩ | ⟨hbare, -⟩⟩ := Item.parse_eq_ok_iff.mp hparse
      · unfold parse
        simp only
        rw [if_neg (by simpa using hne), hstop, hall]
        rfl
      · cases hbare
    · unfold parse
      simp only
      rw [if_neg (by simpa using hne), if_neg (by simpa using hhead), hrun]
      simp only [hblank, if_true]

theorem trees_derivation {s : List Char} {f : EnvForm} (h : parse s = .ok f) :
    f.derivation.trees 0 = [f.tree] := by
  rcases parse_eq_ok_iff.mp h with ⟨items, trail, hall, rfl⟩
    | ⟨name, after, text, trail, -, -, -, -, -, -, rfl⟩
  · obtain ⟨i, rest, more, rfl, -⟩ := Item.exists_of_parseAll hall
    have hsource := Item.source_derivation .envEquals .envEquals
    have hitems := Item.trees_cons hsource (Item.trees_derivation .envEquals .envEquals) i more
    simp only [derivation, Derivation.all, Derivation.trees, Derivation.trees_optionalBlanks,
      Derivation.source, Derivation.source_optionalWord, hsource,
      Item.source_moreDerivation hsource, hitems, List.nil_append, List.append_nil, Nat.zero_add,
      tree, source, List.flatMap_cons, Item.source, List.append_assoc]
  · simp only [derivation, Derivation.all, Derivation.trees, Derivation.trees_optionalBlanks,
      Derivation.wordTrees, Derivation.source, Derivation.source_optionalWord, List.nil_append,
      List.append_nil, List.append_assoc, List.length_append, Nat.add_assoc, Nat.zero_add, tree,
      source, Token.stop]
    rfl

end EnvForm

/-- **The derivations of a text as the arguments of `ENV`** are those of the form that is read. -/
theorem Grammar.derives_env_iff {s : List Char} {d : Derivation} :
    Derives env s d [] ↔ ∃ f, EnvForm.parse s = .ok f ∧ d = f.derivation := by
  constructor
  · intro h
    obtain ⟨e, h₀, rfl⟩ := derives_rule_iff.mp h
    obtain ⟨dlead, body, e₁, hlead, h₁, rfl⟩ := derives_seq_iff.mp h₀
    obtain ⟨dbody, trail, e₂, hbody, hend, rfl⟩ := derives_seq_iff.mp h₁
    obtain ⟨hblank, rfl⟩ := derives_last_blanks_iff.mp hend
    rcases derives_either_iff.mp hbody with ⟨e, hspace, rfl⟩ | ⟨e, hpairs, rfl⟩
    · obtain ⟨e', h₂, rfl⟩ := derives_rule_iff.mp hspace
      obtain ⟨dname, after, e₃, hname, h₃, rfl⟩ := derives_seq_iff.mp h₂
      obtain ⟨dgap, start, e₄, hgap, h₄, rfl⟩ := derives_seq_iff.mp h₃
      obtain ⟨dtext, stop, e₅, htext, hstop, rfl⟩ := derives_seq_iff.mp h₄
      obtain ⟨rfl, rfl⟩ := derives_empty_iff.mp hstop
      obtain ⟨rfl, rfl⟩ := (derives_optional_blanks_iff (atWord_of_name hname).2).mp hlead
      obtain ⟨hgapne, rfl, rfl⟩ := derives_blanks_iff.mp hgap
      obtain ⟨text, hrun, rfl⟩ := (derives_line_iff (t := .environmentRest) rfl).mp htext
      obtain ⟨hne, rfl, rfl⟩ := (derives_run_iff (w := .kept .variableName) rfl).mp hname
      have hhead : ((skipBlanks s).dropWhile isVariableChar).head? ≠ some '=' := fun hhead =>
        absurd ((leadingBlanks_ne_nil_iff.mp hgapne).2 '=' hhead) (by decide)
      exact ⟨_, EnvForm.parse_eq_ok_iff.mpr
        (Or.inr ⟨_, _, text, trail, rfl, rfl, hne, hhead, hrun, hblank, rfl⟩), rfl⟩
    · obtain ⟨dfirst, mid, dmore, hfirst, hmore, rfl⟩ := derives_seq_iff.mp hpairs
      obtain ⟨rfl, rfl⟩ := (derives_optional_blanks_iff (atWord_of_pair hfirst).2).mp hlead
      obtain ⟨i, more, hall, rfl, rfl⟩ :=
        exists_parseAll_of_derives readsItem_env hblank hfirst hmore
      refine ⟨_, EnvForm.parse_eq_ok_iff.mpr (Or.inl ⟨_, _, hall, rfl⟩), ?_⟩
      rw [← Item.gap_of_parseAll hall]
      rfl
  · rintro ⟨f, hf, rfl⟩
    have hlead := (derives_optional_blanks_iff (s := s) (atWord_skipBlanks s)).mpr ⟨rfl, rfl⟩
    rcases EnvForm.parse_eq_ok_iff.mp hf with ⟨items, trail, hall, rfl⟩
      | ⟨name, after, text, trail, rfl, rfl, hne, hhead, hrun, hblank, rfl⟩
    · obtain ⟨i, rest, more, rfl, -, hblank, -⟩ := Item.exists_of_parseAll hall
      obtain ⟨mid, hfirst, hmore⟩ := exists_derives_of_parseAll readsItem_env hall
      rw [← Item.gap_of_parseAll hall] at hlead
      have hend := derives_last_blanks_iff.mpr ⟨hblank, rfl⟩
      exact .rule (.seq hlead (.seq (.right (.seq hfirst hmore)) hend))
    · have hname := (derives_run_iff (w := .kept .variableName) (s := skipBlanks s) rfl).mpr
        ⟨hne, rfl, rfl⟩
      have hgap : leadingBlanks ((skipBlanks s).dropWhile isVariableChar) ≠ [] := by
        refine leadingBlanks_ne_nil_iff.mpr ⟨fun hnil => ?_, atGap_dropWhile_isVariableChar hhead⟩
        rw [hnil] at hrun
        cases hrun
      have htext := (derives_line_iff (t := .environmentRest) rfl).mpr ⟨text, hrun, rfl⟩
      have hspace := Derives.rule (r := .envSpace)
        (.seq hname (.seq (derives_blanks_iff.mpr ⟨hgap, rfl, rfl⟩) (.seq htext .empty)))
      exact .rule (.seq hlead (.seq (.left hspace) (derives_last_blanks_iff.mpr ⟨hblank, rfl⟩)))

end Dockerfile
