import Dockerfile.Proofs.Instruction.Split
import Dockerfile.Proofs.Variable.Rendering

/-!
# Declarations, written and read back

The arguments of `ARG` and `ENV` are declarations in writing, or, for `ENV`, a name and the rest of
the line. What is declared are the names and values that were written. Each declaration starts where
its name was written and goes up to the start of the next one, the last one to the end of the
arguments. Nothing else declares anything.

* `Declaration.declares_of_named` — what is declared, from what is read
* `Declaration.ofCommand_round_trip` — writing and reading are inverse
-/

namespace Dockerfile

/-! ## Arguments in writing -/

/-- A name and the rest of a line in writing. Neither the rest nor what is in front of it ends at
the blanks between them. -/
structure EnvForm.RestWritten (name gap rest : List Char) : Prop where
  name_ne_nil : name ≠ []
  name : ∀ c ∈ name, isVariableChar c = true
  gap_ne_nil : gap ≠ []
  gap : isAllBlank gap = true
  rest_ne_nil : rest ≠ []
  start : AtWord rest
  stop : EndsInWord rest
  line : '\n' ∉ rest

/-- The arguments of a declaring instruction in writing. All items of `ENV` have values. -/
inductive Declarer.Writes (declarer : Declarer) : List Char → Prop
  | items {items : List Item} (h : Item.Rendering items)
    (hvalues : declarer = .env → ∀ i ∈ items, i.value.isSome = true) :
    declarer.Writes (items.flatMap Item.source)
  | rest {name gap rest : List Char} (h : EnvForm.RestWritten name gap rest)
    (henv : declarer = .env) : declarer.Writes (name ++ (gap ++ rest))

/-! ### Ends of arguments -/

theorem endsInWord_of_forall {s : List Char} (h : ∀ c ∈ s, isBlank c = false) : EndsInWord s :=
  fun c hc => h c (List.mem_of_getLast? hc)

theorem EndsInWord.append {t : List Char} (h : EndsInWord t) (hne : t ≠ []) (s : List Char) :
    EndsInWord (s ++ t) := by
  intro c hc
  rw [List.getLast?_append_of_ne_nil s hne] at hc
  exact h c hc

theorem endsInWord_quoted {quote : Char} (hquote : isBlank quote = false) (text s : List Char) :
    EndsInWord (s ++ quote :: (text ++ [quote])) := by
  have hend : EndsInWord [quote] := endsInWord_of_forall (by simpa using hquote)
  have hquoted := hend.append (List.cons_ne_nil _ _) (quote :: text)
  exact hquoted.append (List.cons_ne_nil _ _) s

/-- A value does not end in a blank: the last thing in it is a quote or an unquoted character. -/
theorem EndsInWord.append_valueSource {s : List Char} (hs : EndsInWord s) {chunks : List Chunk}
    (h : ∀ c ∈ chunks, c.Writable) : EndsInWord (s ++ valueSource chunks) := by
  induction chunks generalizing s with
  | nil => rwa [valueSource, List.flatMap_nil, List.append_nil]
  | cons chunk more ih =>
    obtain ⟨hchunk, hmore⟩ := List.forall_mem_cons.mp h
    have hnext : EndsInWord (s ++ chunk.source) := by
      cases chunk with
      | plain text =>
        by_cases hnil : text = []
        · rwa [Chunk.source, hnil, List.append_nil]
        · have htext : EndsInWord text := by
            refine endsInWord_of_forall fun c hc => ?_
            have := hchunk c hc
            simp only [isChunkChar, Bool.and_eq_true, Bool.not_eq_true'] at this
            exact this.1.1
          exact htext.append hnil s
      | doubleQuoted text => exact endsInWord_quoted (by decide) text s
      | singleQuoted text => exact endsInWord_quoted (by decide) text s
    rw [valueSource, List.flatMap_cons, ← List.append_assoc]
    exact ih hnext hmore

theorem Item.Writable.endsInWord_body {i : Item} (hi : i.Writable) : EndsInWord i.body := by
  have hname : EndsInWord i.name :=
    endsInWord_of_forall fun c hc => isBlank_of_isVariableChar (hi.name c hc)
  rw [body]
  cases hvalue : i.value with
  | none => rwa [List.append_nil]
  | some chunks =>
    have hequals : EndsInWord ['='] := endsInWord_of_forall (by simp [isBlank])
    have hbefore := hequals.append (List.cons_ne_nil _ _) i.name
    have hall := hbefore.append_valueSource (hi.value chunks hvalue)
    rwa [List.append_assoc] at hall

/-- **Arguments in writing have no blanks at their ends.** -/
theorem Declarer.Writes.ends {declarer : Declarer} {arguments : List Char}
    (h : declarer.Writes arguments) :
    arguments ≠ [] ∧ AtWord arguments ∧ EndsInWord arguments := by
  cases h with
  | @items items h hvalues =>
    have hbody : ∀ i ∈ items, i.body ≠ [] := by
      intro i hi hnil
      exact (h.writable i hi).name_ne_nil (List.append_eq_nil_iff.mp hnil).1
    refine ⟨?_, ?_, ?_⟩
    · obtain ⟨i, more, rfl⟩ := List.exists_cons_of_ne_nil h.ne_nil
      have hi := hbody i (List.mem_cons_self ..)
      simp [Item.source, hi]
    · obtain ⟨i, more, rfl⟩ := List.exists_cons_of_ne_nil h.ne_nil
      have hi := h.writable i (List.mem_cons_self ..)
      rw [List.flatMap_cons, Item.source, h.start i rfl, List.nil_append]
      exact hi.atWord_body _
    · obtain ⟨front, i, rfl⟩ := (List.eq_nil_or_concat items).resolve_left h.ne_nil
      rw [List.concat_eq_append] at h hbody ⊢
      have hmem : i ∈ front ++ [i] := List.mem_append_right _ (List.mem_singleton_self i)
      rw [List.flatMap_append, List.flatMap_singleton, Item.source, ← List.append_assoc]
      exact (h.writable i hmem).endsInWord_body.append (hbody i hmem) _
  | @rest name gap rest h henv =>
    refine ⟨?_, ?_, ?_⟩
    · simp [h.name_ne_nil]
    · exact Item.atWord_name h.name_ne_nil h.name _
    · rw [← List.append_assoc]
      exact h.stop.append h.rest_ne_nil _

/-! ## Places of names -/

namespace Declaration

theorem length_withExtents (stop : Nat) (ds : List Declaration) :
    (withExtents stop ds).length = ds.length := by
  fun_induction withExtents stop ds with
  | case1 => rfl
  | case2 d => rfl
  | case3 d next more ih => exact congrArg (· + 1) ih

/-- An item's name stands behind the items in front of it and the blanks in front of it. -/
theorem getElem?_located (start : Nat) (items : List Item) (k : Nat) :
    (Item.located start items)[k]? = items[k]?.map fun i =>
      (start + ((items.take k).flatMap Item.source).length + i.gap.length, i) := by
  induction items generalizing start k with
  | nil => rfl
  | cons i more ih =>
    cases k with
    | zero => rfl
    | succ k =>
      rw [Item.located, List.getElem?_cons_succ, List.getElem?_cons_succ, ih, List.take_succ_cons,
        List.flatMap_cons, List.length_append, Nat.add_assoc start]

theorem length_located (start : Nat) (items : List Item) :
    (Item.located start items).length = items.length := by
  induction items generalizing start with
  | nil => rfl
  | cons i more ih => exact congrArg (· + 1) (ih _)

theorem getElem?_ofItems (items : List Item) (k : Nat) :
    (Named.ofItems items)[k]? = items[k]?.map fun i =>
      ⟨((items.take k).flatMap Item.source).length + i.gap.length, i.name,
        i.value.map valueText⟩ := by
  rw [Named.ofItems, List.getElem?_map, getElem?_located, Option.map_map]
  simp only [Nat.zero_add]
  rfl

/-! ## What is declared -/

/-- `ds` are the declarations of items that are the arguments of a command. -/
structure Declares (c : Command) (declarer : Declarer) (line scope : Nat) (items : List Item)
    (ds : List Declaration) : Prop where
  length : ds.length = items.length
  written : ∀ (k : Nat) (d : Declaration) (i : Item), ds[k]? = some d → items[k]? = some i →
    d.name = i.name ∧ d.value = i.value.map valueText
      ∧ d.start
        = c.argumentsStart + ((items.take k).flatMap Item.source).length + i.gap.length
      ∧ d.stop = d.start + i.name.length ∧ d.line = line ∧ d.scope = scope ∧ d.declarer = declarer
  next : ∀ (k : Nat) (d e : Declaration), ds[k]? = some d → ds[k + 1]? = some e →
    d.extent = e.start
  last : ∀ d ∈ ds.getLast?, d.extent = c.argumentsEnd

variable {c : Command} {declarer : Declarer} {line scope : Nat} {items : List Item}

/-- **What is declared, if the names of items are read.** -/
theorem declares_of_named (hknown : c.known? = some declarer.keyword)
    (h : named declarer c.arguments = Named.ofItems items) :
    Declares c declarer line scope items (ofCommand c line scope) := by
  rw [ofCommand_of_known hknown, h]
  have hget : ∀ k, ((Named.ofItems items).map (ofNamed c declarer line scope))[k]?
      = items[k]?.map fun i => ofNamed c declarer line scope
        ⟨((items.take k).flatMap Item.source).length + i.gap.length, i.name,
          i.value.map valueText⟩ := by
    intro k
    rw [List.getElem?_map, getElem?_ofItems, Option.map_map]
    rfl
  have hlength : ((Named.ofItems items).map (ofNamed c declarer line scope)).length
      = items.length := by
    rw [List.length_map, Named.ofItems, List.length_map, length_located]
  refine ⟨?_, ?_, ?_, ?_⟩
  · rw [length_withExtents, hlength]
  · intro k d i hd hi
    rw [getElem?_withExtents, hget k, hi] at hd
    obtain rfl := Option.some.inj hd
    exact ⟨rfl, rfl, (Nat.add_assoc _ _ _).symm, rfl, rfl, rfl, rfl⟩
  · intro k d e hd he
    rw [getElem?_withExtents] at hd he
    obtain ⟨d₀, -, rfl⟩ := Option.map_eq_some_iff.mp hd
    obtain ⟨e₀, he₀, rfl⟩ := Option.map_eq_some_iff.mp he
    rw [he₀]
    rfl
  · intro d hd
    rw [List.getLast?_eq_getElem?, getElem?_withExtents, length_withExtents] at hd
    obtain ⟨d₀, hd₀, rfl⟩ := Option.map_eq_some_iff.mp hd
    have hlt := (List.getElem?_eq_some_iff.mp hd₀).1
    rw [List.getElem?_eq_none (by omega)]
    rfl

/-! ## What is written is declared -/

/-- **The names of items in writing are read.** -/
theorem named_flatMap_source (h : Item.Rendering items)
    (hvalues : declarer = .env → ∀ i ∈ items, i.value.isSome = true) :
    named declarer (items.flatMap Item.source) = Named.ofItems items := by
  cases declarer with
  | arg =>
    obtain ⟨js, hjs, halike⟩ :=
      Item.parseAll_flatMap_source h.ne_nil h.writable h.apart (Or.inl (rfl : true = true))
    have hform := ArgForm.parse_eq_ok_iff (f := ⟨js, []⟩).mpr hjs
    simp only [named, hform]
    exact Named.ofItems_alike halike
  | env =>
    obtain ⟨js, hjs, halike⟩ : ∃ js, Item.parseAll false (items.flatMap Item.source) = .ok (js, [])
        ∧ List.Forall₂ Item.Alike js items :=
      Item.parseAll_flatMap_source h.ne_nil h.writable h.apart (Or.inr (hvalues rfl))
    have hform := EnvForm.parse_eq_ok_iff.mpr (Or.inl ⟨js, [], hjs, rfl⟩)
    simp only [named, hform]
    exact Named.ofItems_alike halike

/-- **The name in front of the rest of a line is read**, and the rest is its value as it stands. -/
theorem named_rest {name gap rest : List Char} (h : EnvForm.RestWritten name gap rest) :
    named .env (name ++ (gap ++ rest)) = [⟨0, name, some rest⟩] := by
  have hstart : AtWord (name ++ (gap ++ rest)) := Item.atWord_name h.name_ne_nil h.name _
  obtain ⟨hlead, hskip⟩ := leadingBlanks_append (show isAllBlank [] = true from rfl) hstart
  rw [List.nil_append] at hlead hskip
  obtain ⟨b, more, hgap⟩ := List.exists_cons_of_ne_nil h.gap_ne_nil
  have hb : isBlank b = true :=
    List.all_eq_true.mp h.gap b (by rw [hgap]; exact List.mem_cons_self ..)
  have hstop : ∀ d ∈ (gap ++ rest).head?, isVariableChar d = false := by
    intro d hd
    rw [hgap] at hd
    obtain rfl := Option.some.inj hd
    simp [isVariableChar, hb]
  have hhead : (gap ++ rest).head? ≠ some '=' := by
    intro heq
    rw [hgap] at heq
    rw [Option.some.inj heq] at hb
    exact absurd hb (by decide)
  obtain ⟨htake, hdrop⟩ := takeWhile_append_of_head h.name hstop
  obtain ⟨hbefore, hbehind⟩ := leadingBlanks_append h.gap h.start
  have hrun := argumentRun_eq_self h.rest_ne_nil h.start h.stop h.line
  have hform : EnvForm.parse (name ++ (gap ++ rest)) = .ok (.rest [] name gap rest []) := by
    refine EnvForm.parse_eq_ok_iff.mpr (Or.inr ⟨name, gap ++ rest, rest, [], ?_, ?_, h.name_ne_nil,
      hhead, ?_, rfl, ?_⟩)
    · rw [hskip, htake]
    · rw [hskip, hdrop]
    · rw [hbehind, hrun]
    · rw [hlead, hbefore]
  simp only [named, hform]
  rfl

/-! ## What is declared has been written -/

/-- **Arguments that declare something are in writing**, if there are no blanks at their ends. -/
theorem writes_of_named {arguments : List Char} (h : named declarer arguments ≠ [])
    (hstart : AtWord arguments) (hend : EndsInWord arguments) (hlf : '\n' ∉ arguments) :
    declarer.Writes arguments := by
  have hitems : ∀ {bare items trail}, Item.parseAll bare arguments = .ok (items, trail) →
      Item.Rendering items ∧ items.flatMap Item.source = arguments := by
    intro bare items trail hall
    have happend := Item.append_of_parseAll hall
    obtain ⟨-, -, -, -, -, hblank, -⟩ := Item.exists_of_parseAll hall
    rw [← happend] at hend
    rw [eq_nil_of_endsInWord hend hblank, List.append_nil] at happend
    exact ⟨Item.rendering_of_parseAll hall hstart, happend⟩
  cases declarer with
  | arg =>
    simp only [named] at h
    split at h
    next form hform =>
      obtain ⟨hrendering, hsource⟩ := hitems (ArgForm.parse_eq_ok_iff.mp hform)
      rw [← hsource]
      refine .items hrendering ?_
      intro henv
      cases henv
    next => exact absurd rfl h
  | env =>
    cases hform : EnvForm.parse arguments with
    | error failure =>
      simp only [named, hform] at h
      exact absurd rfl h
    | ok form =>
      rcases EnvForm.parse_eq_ok_iff.mp hform with ⟨items, trail, hall, -⟩
        | ⟨name, after, text, trail, hname, hafter, hne, hhead, hrun, hblank, -⟩
      · obtain ⟨hrendering, hsource⟩ := hitems hall
        rw [← hsource]
        exact .items hrendering fun _ => Item.forall_of_parseAll Item.isSome_of_parse hall
      · -- the arguments do not start with blanks, and there are none behind the rest of the line
        have hskip : skipBlanks arguments = arguments :=
          (leadingBlanks_append (show isAllBlank [] = true from rfl) hstart).2
        rw [hskip] at hname hafter
        have hgap := leadingBlanks_append_skipBlanks after
        rw [← argumentRun_append hrun] at hgap
        have hsplit : arguments = name ++ (leadingBlanks after ++ (text ++ trail)) := by
          rw [hgap, hname, hafter, List.takeWhile_append_dropWhile]
        rw [hsplit, ← List.append_assoc, ← List.append_assoc] at hend
        rw [eq_nil_of_endsInWord hend hblank, List.append_nil] at hsplit
        have hgapne : leadingBlanks after ≠ [] := by
          refine leadingBlanks_ne_nil_iff.mpr ⟨?_, ?_⟩
          · rintro rfl
            cases hrun
          · rw [hafter] at hhead ⊢
            exact atGap_dropWhile_isVariableChar hhead
        obtain ⟨hword, hstop⟩ := ends_of_argumentRun hrun
        rw [hsplit] at hlf ⊢
        refine .rest
          ⟨hne, ?_, hgapne, List.all_takeWhile, argumentRun_ne_nil hrun, hword, hstop, ?_⟩ rfl
        · intro d hd
          rw [hname] at hd
          exact List.mem_takeWhile_imp hd
        · exact fun hmem => hlf (by simp [hmem])

/--
**Declarations are read back from every way to write them, and from nothing else.**

* Items in writing, as the arguments of `ARG` or `ENV`, declare their names with their values, in
  order. A declaration starts where its name was written, and goes up to the start of the next one,
  the last one to the end of the arguments.
* A name and the rest of a line, as the arguments of `ENV`, declare the name with the rest as its
  value, quotes and all.
* Arguments without line feeds that declare anything are in one of these two forms.
* Everything in these forms can stand behind the word of the instruction as its arguments, unless a
  line feed breaks it.
-/
theorem ofCommand_round_trip (declarer : Declarer) (line scope : Nat) :
    (∀ items, Item.Rendering items →
      (declarer = .env → ∀ i ∈ items, i.value.isSome = true) →
      ∀ c : Command, c.known? = some declarer.keyword →
        c.arguments = items.flatMap Item.source →
        Declares c declarer line scope items (ofCommand c line scope)) ∧
    (∀ name gap rest, EnvForm.RestWritten name gap rest →
      ∀ c : Command, c.known? = some .env → c.arguments = name ++ (gap ++ rest) →
        ofCommand c line scope
          = [⟨name, some rest, c.argumentsStart, c.argumentsEnd, line, scope, .env⟩]) ∧
    (∀ offset s c, Command.parse offset s = some c → c.known? = some declarer.keyword →
      '\n' ∉ c.arguments → ofCommand c line scope ≠ [] → declarer.Writes c.arguments) ∧
    ∀ arguments, declarer.Writes arguments → '\n' ∉ arguments → ∀ offset word gap,
      Keyword.ofWord? word = some declarer.keyword → (∀ d ∈ word, isBlank d = false) →
      gap ≠ [] → isAllBlank gap = true →
      ∃ c, Command.parse offset (word ++ (gap ++ arguments)) = some c
        ∧ c.known? = some declarer.keyword ∧ c.arguments = arguments
        ∧ c.argumentsStart = offset + (word.length + gap.length) := by
  refine ⟨?_, ?_, ?_, ?_⟩
  · intro items h hvalues c hknown harguments
    refine declares_of_named hknown ?_
    rw [harguments]
    exact named_flatMap_source h hvalues
  · intro name gap rest h c hknown harguments
    have henv : c.known? = some Declarer.env.keyword := hknown
    rw [ofCommand_of_known henv, harguments, named_rest h]
    rfl
  · intro offset s c hc hknown hlf hne
    obtain ⟨hstart, hend⟩ := Command.arguments_ends hc
    refine writes_of_named ?_ hstart hend hlf
    intro hnil
    rw [ofCommand_of_known hknown, hnil] at hne
    exact hne rfl
  · intro arguments h hlf offset word gap hknown hwhole hgap hblank
    obtain ⟨hne, hstart, hend⟩ := h.ends
    have hword : word ≠ [] := by
      rintro rfl
      exact absurd hknown (by cases declarer <;> decide)
    exact ⟨_, Command.parse_append offset hword hwhole hgap hblank hne hstart hend hlf, hknown, rfl,
      rfl⟩

/-- `ARG` with a name alone, a value in three pieces and an empty value, and `ENV` with a value that
keeps its quotes. -/
theorem ofCommand_round_trip_pieces :
    let c : Command := ⟨"ARG".toList, 0, "a b=\"x y\"zw c=".toList, 4⟩
    let items : List Item := [⟨[], ['a'], none⟩,
      ⟨[' '], ['b'], some [.doubleQuoted "x y".toList, .plain ['z'], .plain ['w']]⟩,
      ⟨[' '], ['c'], some []⟩]
    let e : Command := ⟨"ENV".toList, 0, "k \"v\" w".toList, 4⟩
    Declares c .arg 0 0 items (ofCommand c 0 0) ∧
      (ofCommand c 0 0).map (fun d => (d.name, d.value, d.start, d.extent))
        = [(['a'], none, 4, 6), (['b'], some "x yzw".toList, 6, 16), (['c'], some [], 16, 18)] ∧
      ofCommand e 1 0 = [⟨['k'], some "\"v\" w".toList, 4, 11, 1, 0, .env⟩] ∧
      Declarer.arg.Writes c.arguments ∧
      ∃ c', Command.parse 2 ("arg".toList ++ (['\t'] ++ c.arguments)) = some c'
        ∧ c'.arguments = c.arguments ∧ c'.argumentsStart = 6 := by
  intro c items e
  obtain ⟨hitems, -, hwritten, hread⟩ := ofCommand_round_trip .arg 0 0
  obtain ⟨-, hrest, -⟩ := ofCommand_round_trip .env 1 0
  have hrendering : Item.Rendering items := by
    refine ⟨List.cons_ne_nil _ _, ?_, by simp [items], by simp [items]⟩
    intro i hi
    simp only [items, List.mem_cons, List.not_mem_nil, or_false] at hi
    rcases hi with rfl | rfl | rfl <;>
      constructor <;> simp [isAllBlank, isBlank, isVariableChar, Chunk.Writable, isChunkChar]
  have hknown : c.known? = some .arg := by decide +kernel
  have hwrites : Declarer.arg.Writes c.arguments := by
    refine hwritten 0 "ARG a b=\"x y\"zw c=".toList c ?_ hknown ?_ ?_ <;> decide +kernel
  have hlf : '\n' ∉ c.arguments := by decide +kernel
  have hvalues : Declarer.arg = .env → ∀ i ∈ items, i.value.isSome = true := by
    intro henv
    cases henv
  refine ⟨hitems items hrendering hvalues c hknown rfl, by decide +kernel, ?_, hwrites, ?_⟩
  · refine hrest ['k'] [' '] "\"v\" w".toList ?_ e (by decide +kernel) rfl
    constructor <;> simp [isVariableChar, isBlank, AtWord, EndsInWord, isAllBlank]
  · obtain ⟨c', hparse, -, harguments, hstart⟩ := hread c.arguments hwrites hlf 2 "arg".toList
      ['\t'] (by decide +kernel) (by simp [isBlank]) (List.cons_ne_nil _ _) rfl
    exact ⟨c', hparse, harguments, hstart⟩

end Declaration

end Dockerfile
