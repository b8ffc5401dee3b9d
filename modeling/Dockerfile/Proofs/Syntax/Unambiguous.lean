import Dockerfile.Proofs.Syntax.Declarations

/-!
# The line grammars are unambiguous

Each of the four grammars leaves choices open, but at most one way to make them leads to the end of
a text. The parser finds it whenever there is one, without going back, and its tree is that of the
derivation. So what is known about the trees of derivations holds for the trees that are parsed.

* `Grammar.decides_of_forms` — a reader of forms decides a grammar
* `LineGrammar.parse_decides` — the four parsers decide the four grammars
-/

namespace Dockerfile

/-- A reader of forms decides a grammar if the derivations of each text are those of the form that
is read from it. -/
theorem Grammar.decides_of_forms {F : Type} {a : Grammar}
    {read : List Char → Except ParseFailure F} {derivation : F → Derivation} {tree : F → ParseTree}
    (hread : ∀ {s d}, Derives a s d [] ↔ ∃ f, read s = .ok f ∧ d = derivation f)
    (htrees : ∀ {s f}, read s = .ok f → (derivation f).trees 0 = [tree f]) (s : List Char) :
    (∀ d d', Derives a s d [] → Derives a s d' [] → d = d')
      ∧ (∀ t, (read s).map tree = .ok t ↔ ∃ d, Derives a s d [] ∧ d.trees 0 = [t])
      ∧ ((∃ failure, (read s).map tree = .error failure) ↔ ¬∃ d, Derives a s d []) := by
  cases hs : read s with
  | error failure =>
    have hnone : ∀ d, ¬Derives a s d [] := by
      intro d hd
      obtain ⟨f, hf, -⟩ := hread.mp hd
      rw [hs] at hf
      cases hf
    refine ⟨fun d d' hd => absurd hd (hnone d), fun t => ⟨fun h => ?_, fun ⟨d, hd, _⟩ => ?_⟩, ?_⟩
    · cases h
    · exact absurd hd (hnone d)
    · exact ⟨fun _ ⟨d, hd⟩ => hnone d hd, fun _ => ⟨failure, rfl⟩⟩
  | ok f =>
    have hone : ∀ {d}, Derives a s d [] → d = derivation f := by
      intro d hd
      obtain ⟨f', hf', rfl⟩ := hread.mp hd
      rw [hs] at hf'
      rw [Except.ok.inj hf']
    have hf : Derives a s (derivation f) [] := hread.mpr ⟨f, hs, rfl⟩
    refine ⟨fun d d' hd hd' => (hone hd).trans (hone hd').symm,
      fun t => ⟨fun h => ?_, fun ⟨d, hd, ht⟩ => ?_⟩, fun ⟨failure, h⟩ => ?_, fun h => ?_⟩
    · obtain rfl := Except.ok.inj h
      exact ⟨_, hf, htrees hs⟩
    · rw [hone hd, htrees hs] at ht
      exact congrArg Except.ok (List.cons.inj ht).1
    · cases h
    · exact absurd ⟨_, hf⟩ h

/-- The tree of a text is the node of `start` over all of it. -/
theorem LineGrammar.span_of_derives {g : LineGrammar} {s : List Char} {d : Derivation}
    {t : ParseTree} (hd : Grammar.Derives g.grammar s d []) (ht : d.trees 0 = [t]) :
    t.rule? = some .start ∧ t.start = 0 ∧ t.stop = s.length := by
  have hgrammar : ∃ body, g.grammar = .rule .start body := by cases g <;> exact ⟨_, rfl⟩
  obtain ⟨body, hgrammar⟩ := hgrammar
  rw [hgrammar] at hd
  obtain ⟨e, hbody, rfl⟩ := Grammar.derives_rule_iff.mp hd
  have hsource : e.source = s := by
    have happend := hbody.append_eq
    rwa [List.append_nil] at happend
  rw [Derivation.trees, hsource, Nat.zero_add] at ht
  obtain ⟨rfl, -⟩ := List.cons.inj ht
  exact ⟨rfl, rfl, rfl⟩

/--
**The line grammars are unambiguous, and the parser decides them.**

Read each grammar as the relation between texts and derivations that its rules allow, where only a
terminal leaves no choice: it takes its greedy match. Then

* a text has at most one derivation;
* the parser answers the tree of the derivation, and fails if there is none;
* the tree spans the text, and the span of every node contains those of its children;
* its tokens are the parts of the text at the places where they start, one behind the other;
* between the tokens there are only the words that are passed over: blanks, `#` and `=`.
-/
theorem LineGrammar.parse_decides (g : LineGrammar) (s : List Char) :
    (∀ d d', Grammar.Derives g.grammar s d [] → Grammar.Derives g.grammar s d' [] → d = d') ∧
    (∀ t, g.parse s = .ok t ↔ ∃ d, Grammar.Derives g.grammar s d [] ∧ d.trees 0 = [t]) ∧
    ((∃ failure, g.parse s = .error failure) ↔ ¬∃ d, Grammar.Derives g.grammar s d []) ∧
    ∀ t, g.parse s = .ok t →
      (t.rule? = some .start ∧ t.start = 0 ∧ t.stop = s.length) ∧ t.Nested ∧
      (∀ w ∈ t.leaves, w.stop ≤ s.length ∧ (s.drop w.start).take w.text.length = w.text) ∧
      t.leaves.Pairwise (fun a b => a.start < b.start ∧ a.stop ≤ b.start) ∧
      ∀ (i : Nat) (c : Char), s[i]? = some c → (∀ w ∈ t.leaves, i < w.start ∨ w.stop ≤ i) →
        isPassedOver c = true := by
  have hdecides : (∀ d d', Grammar.Derives g.grammar s d [] →
        Grammar.Derives g.grammar s d' [] → d = d')
      ∧ (∀ t, g.parse s = .ok t ↔ ∃ d, Grammar.Derives g.grammar s d [] ∧ d.trees 0 = [t])
      ∧ ((∃ failure, g.parse s = .error failure)
        ↔ ¬∃ d, Grammar.Derives g.grammar s d []) := by
    cases g with
    | directive =>
      exact Grammar.decides_of_forms Grammar.derives_directive_iff
        (fun _ => DirectiveForm.trees_derivation _) s
    | instruction =>
      exact Grammar.decides_of_forms Grammar.derives_instruction_iff
        InstructionForm.trees_derivation s
    | arg => exact Grammar.decides_of_forms Grammar.derives_arg_iff ArgForm.trees_derivation s
    | env => exact Grammar.decides_of_forms Grammar.derives_env_iff EnvForm.trees_derivation s
  obtain ⟨hunique, hok, herror⟩ := hdecides
  refine ⟨hunique, hok, herror, fun t ht => ?_⟩
  obtain ⟨d, hd, htrees⟩ := (hok t).mp ht
  have hsource : d.source = s := by
    have happend := hd.append_eq
    rwa [List.append_nil] at happend
  -- the tokens of the tree are those of the derivation
  have hlaid : Laid 0 s t.leaves := by
    have h := hd.laid 0
    rwa [hsource, htrees, leavesOf, leavesOf, List.append_nil] at h
  have hmem : t ∈ d.trees 0 := by rw [htrees]; exact List.mem_singleton_self t
  refine ⟨span_of_derives hd htrees, (Derivation.within_of_mem_trees hmem).2.2, fun w hw => ?_,
    hlaid.sorted, fun i c hc hgap => hlaid.isPassedOver_of_gap hc fun w hw => ?_⟩
  · obtain ⟨-, hstop, hslice⟩ := hlaid.slice_of_mem hw
    rw [Nat.zero_add] at hstop
    exact ⟨hstop, hslice⟩
  · rw [Nat.zero_add]
    exact hgap w hw

/-- A name alone, a name with an empty value, and a value with blanks inside quotes: the tree is
that of a derivation, and its nodes lie inside each other. -/
theorem LineGrammar.parse_decides_quoted :
    let s := " a b= c=d\"e f\"\t".toList
    ∃ t, LineGrammar.arg.parse s = .ok t
      ∧ t.leaves = [⟨.variableName, ['a'], 1⟩, ⟨.variableName, ['b'], 3⟩,
        ⟨.variableName, ['c'], 6⟩, ⟨.valueChunk, ['d'], 8⟩, ⟨.doubleQuoted, "\"e f\"".toList, 9⟩]
      ∧ t.Nested ∧ ∃ d, Grammar.Derives Grammar.arg s d [] ∧ d.trees 0 = [t] := by
  intro s
  have hleaves : (LineGrammar.arg.parse s).toOption.map ParseTree.leaves
      = some [⟨.variableName, ['a'], 1⟩, ⟨.variableName, ['b'], 3⟩, ⟨.variableName, ['c'], 6⟩,
        ⟨.valueChunk, ['d'], 8⟩, ⟨.doubleQuoted, "\"e f\"".toList, 9⟩] := by
    decide +kernel
  obtain ⟨-, hok, -, htree⟩ := LineGrammar.parse_decides .arg s
  cases ht : LineGrammar.arg.parse s with
  | error failure => rw [ht] at hleaves; cases hleaves
  | ok t =>
    rw [ht] at hleaves
    exact ⟨t, rfl, Option.some.inj hleaves, (htree t ht).2.1, (hok t).mp ht⟩

end Dockerfile
