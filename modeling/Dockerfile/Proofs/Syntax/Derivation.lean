import Mathlib.Data.List.TakeWhile
import Dockerfile.Proofs.Syntax.Pattern
import Dockerfile.Syntax.ParseTree

/-!
# Grammars and derivations

A grammar is read as a relation: a text has all the derivations that its rules allow, whatever
choices they make on the way. Only a word leaves no choice, it takes its greedy match.

A derivation records the choices. The tree of a derivation keeps the nodes and the words that are
not passed over, with the places at which they stand.

* `Grammar.Derives` — the derivations of a text
* `Grammar.Derives.append_eq` — what a derivation takes and the rest are the text
* `Grammar.Derives.laid` — the tokens of the tree stand in the text one behind the other
* `Derivation.within_of_mem_trees` — the nodes of the tree lie inside each other
-/

namespace Dockerfile

/-! ## Grammars -/

/-- The words of a grammar, with those that are passed over in a tree. -/
inductive Lexeme
  | blanks
  | hash
  | equals
  | kept (t : Terminal)
deriving DecidableEq

/-- The pattern of a terminal that is kept in a tree. -/
def Terminal.pattern : Terminal → Pattern
  -- `[A-Za-z][A-Za-z0-9_-]*`
  | .directiveKey => .seq (.one isKeyStart) (.many isKeyChar)
  -- `.+`
  | .directiveValue => .run (· != '\n')
  -- `[^ \t]+`
  | .keyword => .run isKeywordChar
  -- `[^ \t](?:.*[^ \t])?`
  | .arguments => .line
  -- `[^ \t=]+`
  | .variableName => .run isVariableChar
  -- `[^ \t'"]+`
  | .valueChunk => .run isChunkChar
  -- `"[^"]*"`
  | .doubleQuoted => .quoted '"'
  -- `'[^']*'`
  | .singleQuoted => .quoted '\''
  -- `[^ \t](?:.*[^ \t])?`
  | .environmentRest => .line

/-- The pattern of a word. -/
def Lexeme.pattern : Lexeme → Pattern
  -- `[ \t]+`
  | .blanks => .run isBlank
  | .hash => .one (· == '#')
  | .equals => .one (· == '=')
  | .kept t => t.pattern

/-- A grammar, or a part of one. Its rules are written out in place; those that make no node are
just what they stand for. -/
inductive Grammar
  | empty
  | word (w : Lexeme)
  /-- A rule that makes a node. -/
  | rule (r : Rule) (body : Grammar)
  | seq (a b : Grammar)
  | either (a b : Grammar)
  | many (a : Grammar)

namespace Grammar

/-- Once or not at all. -/
def optional (a : Grammar) : Grammar := .either a .empty

/-- Once or more often. -/
def oneOrMore (a : Grammar) : Grammar := .seq a (.many a)

/-- One after the other. -/
def all : List Grammar → Grammar
  | [] => .empty
  | a :: more => .seq a (all more)

end Grammar

/-! ## Derivations -/

/-- The choices that are made in reading a text. -/
inductive Derivation
  | empty
  | word (w : Lexeme) (text : List Char)
  | rule (r : Rule) (d : Derivation)
  | seq (a b : Derivation)
  | left (d : Derivation)
  | right (d : Derivation)
  /-- No further repetition. -/
  | stop
  /-- One repetition and what follows it. -/
  | more (a b : Derivation)
deriving DecidableEq

namespace Derivation

/-- The text that is read. -/
def source : Derivation → List Char
  | empty => []
  | word _ text => text
  | rule _ d => d.source
  | seq a b => a.source ++ b.source
  | left d => d.source
  | right d => d.source
  | stop => []
  | more a b => a.source ++ b.source

/-- The tree of a word that starts at `start`, if it is kept. -/
def wordTrees (start : Nat) : Lexeme → List Char → List ParseTree
  | .kept t, text => [.token ⟨t, text, start⟩]
  | .blanks, _ => []
  | .hash, _ => []
  | .equals, _ => []

/-- The trees of a derivation that starts at `start`. -/
def trees (start : Nat) : Derivation → List ParseTree
  | empty => []
  | word w text => wordTrees start w text
  | rule r d => [.node r start (start + d.source.length) (d.trees start)]
  | seq a b => a.trees start ++ b.trees (start + a.source.length)
  | left d => d.trees start
  | right d => d.trees start
  | stop => []
  | more a b => a.trees start ++ b.trees (start + a.source.length)

end Derivation

namespace Grammar

/-- **The derivations of a text**, each with the rest of the text behind it. -/
inductive Derives : Grammar → List Char → Derivation → List Char → Prop
  | empty {s} : Derives .empty s .empty s
  | word {w s text rest} (h : w.pattern.greedy? s = some (text, rest)) :
    Derives (.word w) s (.word w text) rest
  | rule {r a s d rest} (h : Derives a s d rest) : Derives (.rule r a) s (.rule r d) rest
  | seq {a b s d mid e rest} (ha : Derives a s d mid) (hb : Derives b mid e rest) :
    Derives (.seq a b) s (.seq d e) rest
  | left {a b s d rest} (h : Derives a s d rest) : Derives (.either a b) s (.left d) rest
  | right {a b s d rest} (h : Derives b s d rest) : Derives (.either a b) s (.right d) rest
  | stop {a s} : Derives (.many a) s .stop s
  | more {a s d mid e rest} (ha : Derives a s d mid) (hmore : Derives (.many a) mid e rest) :
    Derives (.many a) s (.more d e) rest

section Inversion

variable {a b : Grammar} {w : Lexeme} {r : Rule} {s rest : List Char} {d : Derivation}

theorem derives_empty_iff : Derives .empty s d rest ↔ d = .empty ∧ rest = s := by
  constructor
  · rintro ⟨⟩
    exact ⟨rfl, rfl⟩
  · rintro ⟨rfl, rfl⟩
    exact .empty

theorem derives_word_iff : Derives (.word w) s d rest
    ↔ ∃ text, w.pattern.greedy? s = some (text, rest) ∧ d = .word w text := by
  constructor
  · rintro (_ | h)
    exact ⟨_, h, rfl⟩
  · rintro ⟨text, h, rfl⟩
    exact .word h

theorem derives_rule_iff :
    Derives (.rule r a) s d rest ↔ ∃ e, Derives a s e rest ∧ d = .rule r e := by
  constructor
  · rintro (_ | _ | h)
    exact ⟨_, h, rfl⟩
  · rintro ⟨e, h, rfl⟩
    exact .rule h

theorem derives_seq_iff : Derives (.seq a b) s d rest
    ↔ ∃ da mid db, Derives a s da mid ∧ Derives b mid db rest ∧ d = .seq da db := by
  constructor
  · rintro (_ | _ | _ | ⟨ha, hb⟩)
    exact ⟨_, _, _, ha, hb, rfl⟩
  · rintro ⟨da, mid, db, ha, hb, rfl⟩
    exact .seq ha hb

theorem derives_either_iff : Derives (.either a b) s d rest
    ↔ (∃ e, Derives a s e rest ∧ d = .left e) ∨ ∃ e, Derives b s e rest ∧ d = .right e := by
  constructor
  · intro h
    cases h with
    | left h => exact Or.inl ⟨_, h, rfl⟩
    | right h => exact Or.inr ⟨_, h, rfl⟩
  · rintro (⟨e, h, rfl⟩ | ⟨e, h, rfl⟩)
    · exact .left h
    · exact .right h

theorem derives_many_iff : Derives (.many a) s d rest
    ↔ d = .stop ∧ rest = s ∨ ∃ da mid db, Derives a s da mid ∧ Derives (.many a) mid db rest
      ∧ d = .more da db := by
  constructor
  · intro h
    cases h with
    | stop => exact Or.inl ⟨rfl, rfl⟩
    | more ha hmore => exact Or.inr ⟨_, _, _, ha, hmore, rfl⟩
  · rintro (⟨rfl, rfl⟩ | ⟨da, mid, db, ha, hmore, rfl⟩)
    · exact .stop
    · exact .more ha hmore

end Inversion

/-- **What a derivation takes and the rest are the text.** -/
theorem Derives.append_eq {a : Grammar} {s rest : List Char} {d : Derivation}
    (h : Derives a s d rest) : d.source ++ rest = s := by
  induction h with
  | empty | stop => rfl
  | word h => exact Pattern.append_of_greedy? h
  | rule _ ih | left _ ih | right _ ih => exact ih
  | seq _ _ iha ihb | more _ _ iha ihb => rw [Derivation.source, List.append_assoc, ihb, iha]

end Grammar

/-! ## Tokens -/

mutual

/-- The tokens of a tree, in order. -/
def ParseTree.leaves : ParseTree → List Token
  | .token t => [t]
  | .node _ _ _ children => leavesOf children

/-- The tokens of trees, in order. -/
def leavesOf : List ParseTree → List Token
  | [] => []
  | t :: more => t.leaves ++ leavesOf more

end

theorem leavesOf_append (ts us : List ParseTree) :
    leavesOf (ts ++ us) = leavesOf ts ++ leavesOf us := by
  induction ts with
  | nil => rfl
  | cons t ts ih => rw [List.cons_append, leavesOf, leavesOf, ih, List.append_assoc]

/-- The characters of the words that are passed over. -/
def isPassedOver (c : Char) : Bool := isBlank c || c == '#' || c == '='

/-- The tokens stand one behind the other in a text that starts at `start`, with nothing but words
that are passed over in between. -/
inductive Laid : Nat → List Char → List Token → Prop
  | gap {start gap} (hgap : gap.all isPassedOver) : Laid start gap []
  | token {start gap t rest more} (hgap : gap.all isPassedOver)
    (hstart : t.start = start + gap.length) (hne : t.text ≠ []) (hmore : Laid t.stop rest more) :
    Laid start (gap ++ (t.text ++ rest)) (t :: more)

namespace Laid

variable {start : Nat} {s s' : List Char} {ts us : List Token}

theorem append_gap {gap : List Char} (hgap : gap.all isPassedOver)
    (h : Laid (start + gap.length) s ts) : Laid start (gap ++ s) ts := by
  cases h with
  | gap hgap' =>
    refine .gap ?_
    rw [List.all_append, hgap, hgap']
    rfl
  | token hgap' hstart hne hmore =>
    rw [← List.append_assoc]
    refine .token ?_ ?_ hne hmore
    · rw [List.all_append, hgap, hgap']
      rfl
    · rw [hstart, List.length_append, Nat.add_assoc]

theorem append (h : Laid start s ts) (h' : Laid (start + s.length) s' us) :
    Laid start (s ++ s') (ts ++ us) := by
  induction h with
  | gap hgap => exact h'.append_gap hgap
  | @token start gap t rest more hgap hstart hne hmore ih =>
    rw [List.append_assoc, List.append_assoc]
    refine .token hgap hstart hne (ih ?_)
    have hstop : t.stop + rest.length = start + (gap ++ (t.text ++ rest)).length := by
      rw [Token.stop, hstart, List.length_append, List.length_append, Nat.add_assoc, Nat.add_assoc]
    rwa [hstop]

/-- Each token is the part of the text that stands where it starts. -/
theorem slice_of_mem (h : Laid start s ts) {t : Token} (ht : t ∈ ts) : start ≤ t.start
    ∧ t.stop ≤ start + s.length ∧ (s.drop (t.start - start)).take t.text.length = t.text := by
  induction h with
  | gap => simp at ht
  | @token start gap u rest more hgap hstart hne hmore ih =>
    have hlength :
        (gap ++ (u.text ++ rest)).length = gap.length + (u.text.length + rest.length) := by
      rw [List.length_append, List.length_append]
    rw [hlength]
    rcases List.mem_cons.mp ht with rfl | ht
    · refine ⟨by omega, by rw [Token.stop]; omega, ?_⟩
      rw [hstart, Nat.add_sub_cancel_left, List.drop_left, List.take_left]
    · obtain ⟨hle, hstop, hslice⟩ := ih ht
      simp only [Token.stop] at hle hstop ⊢
      refine ⟨by omega, by omega, ?_⟩
      have hdrop : t.start - start
          = gap.length + (u.text.length + (t.start - (u.start + u.text.length))) := by omega
      rw [hdrop, ← List.drop_drop, List.drop_left, ← List.drop_drop, List.drop_left]
      exact hslice

/-- The tokens do not overlap, and each starts behind the one before. -/
theorem sorted (h : Laid start s ts) :
    ts.Pairwise fun a b => a.start < b.start ∧ a.stop ≤ b.start := by
  induction h with
  | gap => exact .nil
  | @token start gap t rest more hgap hstart hne hmore ih =>
    refine .cons (fun u hu => ?_) ih
    have hle := (hmore.slice_of_mem hu).1
    have hpos := List.length_pos_iff.mpr hne
    rw [Token.stop] at hle
    exact ⟨by omega, hle⟩

/-- A character on no token belongs to a word that is passed over. -/
theorem isPassedOver_of_gap (h : Laid start s ts) {i : Nat} {c : Char} (hc : s[i]? = some c)
    (hgap : ∀ t ∈ ts, start + i < t.start ∨ t.stop ≤ start + i) : isPassedOver c = true := by
  induction h generalizing i with
  | gap hall => exact List.all_eq_true.mp hall c (List.mem_of_getElem? hc)
  | @token start gap t rest more hall hstart hne hmore ih =>
    by_cases hi : i < gap.length
    · rw [List.getElem?_append_left hi] at hc
      exact List.all_eq_true.mp hall c (List.mem_of_getElem? hc)
    · have hstop : t.stop ≤ start + i :=
        (hgap t List.mem_cons_self).resolve_left (by omega)
      rw [Token.stop] at hstop
      rw [List.getElem?_append_right (by omega), List.getElem?_append_right (by omega)] at hc
      refine ih hc fun u hu => ?_
      have := hgap u (List.mem_cons_of_mem _ hu)
      rw [Token.stop]
      omega

end Laid

/-- A word that is kept is not empty, and one that is passed over consists of blanks, or is `#` or
`=`. -/
theorem Lexeme.laid {w : Lexeme} {s text rest : List Char}
    (h : w.pattern.greedy? s = some (text, rest)) (start : Nat) :
    Laid start text (leavesOf (Derivation.wordTrees start w text)) := by
  cases w with
  | blanks =>
    rw [pattern, Pattern.greedy?_run] at h
    split at h
    · cases h
    · obtain ⟨rfl, -⟩ := Prod.mk.inj (Option.some.inj h)
      refine .gap (List.all_eq_true.mpr fun c hc => ?_)
      rw [isPassedOver, List.mem_takeWhile_imp hc]
      rfl
  | hash | equals =>
    obtain ⟨c, -, hc, rfl⟩ := Pattern.greedy?_one_eq_some_iff.mp h
    exact .gap (by rw [eq_of_beq hc]; rfl)
  | kept t =>
    -- every terminal starts with one character
    have hpattern : ∃ p b, t.pattern = .seq (.one p) b := by cases t <;> exact ⟨_, _, rfl⟩
    obtain ⟨p, b, hpattern⟩ := hpattern
    rw [pattern, hpattern] at h
    have hne := Pattern.ne_nil_of_greedy?_one_seq h
    have htoken : Laid start ([] ++ (text ++ [])) [⟨t, text, start⟩] :=
      .token (t := ⟨t, text, start⟩) rfl rfl hne (.gap rfl)
    rwa [List.nil_append, List.append_nil] at htoken

/-- **The tokens of a derivation stand in its text one behind the other.** -/
theorem Grammar.Derives.laid {a : Grammar} {s rest : List Char} {d : Derivation}
    (h : Derives a s d rest) (start : Nat) : Laid start d.source (leavesOf (d.trees start)) := by
  induction h generalizing start with
  | empty | stop => exact .gap rfl
  | word h => exact Lexeme.laid h start
  | @rule r a s d rest _ ih =>
    rw [Derivation.trees, leavesOf, leavesOf, ParseTree.leaves, List.append_nil]
    exact ih start
  | left _ ih | right _ ih => exact ih start
  | seq _ _ iha ihb | more _ _ iha ihb =>
    rw [Derivation.trees, leavesOf_append]
    exact (iha start).append (ihb _)

/-! ## Nodes -/

/-- Where a tree starts. -/
def ParseTree.start : ParseTree → Nat
  | .token t => t.start
  | .node _ start _ _ => start

/-- Where a tree ends. -/
def ParseTree.stop : ParseTree → Nat
  | .token t => t.stop
  | .node _ _ stop _ => stop

/-- The span of every node contains those of its children. -/
inductive ParseTree.Nested : ParseTree → Prop
  | token (t : Token) : Nested (.token t)
  | node {rule start stop children}
    (hspan : ∀ c ∈ children, start ≤ ParseTree.start c ∧ ParseTree.stop c ≤ stop)
    (hmore : ∀ c ∈ children, Nested c) : Nested (.node rule start stop children)

/-- **The trees of a derivation lie inside its text**, and their nodes inside each other. -/
theorem Derivation.within_of_mem_trees {d : Derivation} {start : Nat} {t : ParseTree}
    (ht : t ∈ d.trees start) :
    start ≤ t.start ∧ t.stop ≤ start + d.source.length ∧ t.Nested := by
  induction d generalizing start t with
  | empty | stop => simp [trees] at ht
  | word w text =>
    cases w with
    | kept terminal =>
      rw [trees, wordTrees, List.mem_singleton] at ht
      rw [ht]
      exact ⟨Nat.le_refl _, Nat.le_refl _, .token _⟩
    | blanks | hash | equals => simp [trees, wordTrees] at ht
  | rule r d ih =>
    rw [trees, List.mem_singleton] at ht
    rw [ht]
    exact ⟨Nat.le_refl _, Nat.le_refl _, .node (fun c hc => ⟨(ih hc).1, (ih hc).2.1⟩)
      fun c hc => (ih hc).2.2⟩
  | left d ih | right d ih => exact ih ht
  | seq a b iha ihb | more a b iha ihb =>
    rw [source, List.length_append]
    rcases List.mem_append.mp ht with ht | ht
    · obtain ⟨hle, hstop, hnested⟩ := iha ht
      exact ⟨hle, by omega, hnested⟩
    · obtain ⟨hle, hstop, hnested⟩ := ihb ht
      exact ⟨by omega, by omega, hnested⟩

end Dockerfile
