import Dockerfile.Proofs.Syntax.Grammars

/-!
# The grammar of a value

The first character of a chunk tells what kind of chunk it is. How many chunks a value has is open
in the grammar, and so is whether there is a value at all. What follows a value settles both: it is
a blank or the end of the text, and in front of that the chunks go on.

* `Grammar.derives_chunk_iff` — one chunk
* `Grammar.derives_optional_value_iff` — a value that need not be there
-/

namespace Dockerfile

/-! ## Values -/

namespace Chunk

/-- The derivation of a chunk. -/
def derivation : Chunk → Derivation
  | .plain text => .left (.word (.kept .valueChunk) text)
  | .doubleQuoted text => .right (.left (.word (.kept .doubleQuoted) ('"' :: (text ++ ['"']))))
  | .singleQuoted text => .right (.right (.word (.kept .singleQuoted) ('\'' :: (text ++ ['\'']))))

/-- The derivation of further chunks. -/
def moreDerivation : List Chunk → Derivation
  | [] => .stop
  | c :: cs => .more c.derivation (moreDerivation cs)

/-- The derivation of a value that need not be there. -/
def valueDerivation : List Chunk → Derivation
  | [] => .right .empty
  | c :: cs => .left (.rule .value (.seq c.derivation (moreDerivation cs)))

theorem source_derivation (c : Chunk) : c.derivation.source = c.source := by
  cases c <;> rfl

theorem trees_derivation (start : Nat) (c : Chunk) :
    c.derivation.trees start = [.token ⟨c.terminal, c.source, start⟩] := by
  cases c <;> rfl

theorem source_moreDerivation (cs : List Chunk) :
    (moreDerivation cs).source = valueSource cs := by
  induction cs with
  | nil => rfl
  | cons c cs ih =>
    rw [moreDerivation, Derivation.source, source_derivation, ih]
    rfl

theorem trees_moreDerivation (start : Nat) (cs : List Chunk) :
    (moreDerivation cs).trees start = (tokens start cs).map .token := by
  induction cs generalizing start with
  | nil => rfl
  | cons c cs ih =>
    rw [moreDerivation, Derivation.trees, trees_derivation, source_derivation, ih]
    rfl

theorem source_valueDerivation (cs : List Chunk) :
    (valueDerivation cs).source = valueSource cs := by
  cases cs with
  | nil => rfl
  | cons c cs => exact source_moreDerivation (c :: cs)

theorem trees_valueDerivation (start : Nat) (cs : List Chunk) :
    (valueDerivation cs).trees start = if cs.isEmpty then [] else [valueTree start cs] := by
  cases cs with
  | nil => rfl
  | cons c cs =>
    have hsource : (c.derivation.seq (moreDerivation cs)).source = valueSource (c :: cs) :=
      source_moreDerivation (c :: cs)
    have htrees : (c.derivation.seq (moreDerivation cs)).trees start
        = (tokens start (c :: cs)).map .token := trees_moreDerivation start (c :: cs)
    rw [valueDerivation, Derivation.trees, Derivation.trees, hsource, htrees]
    rfl

/-! ### Reading chunks -/

variable {s rest : List Char} {c : Char}

theorem read?_of_isChunkChar (hc : isChunkChar c = true) : read? (c :: s)
    = some (.plain ((c :: s).takeWhile isChunkChar), (c :: s).dropWhile isChunkChar) := by
  have hblank : isBlank c = false := by
    cases hb : isBlank c with
    | false => rfl
    | true => simp [isChunkChar, hb] at hc
  unfold read?
  split
  next heq => cases heq
  next heq =>
    obtain ⟨rfl, -⟩ := List.cons.inj heq
    exact absurd hc (by decide)
  next heq =>
    obtain ⟨rfl, -⟩ := List.cons.inj heq
    exact absurd hc (by decide)
  next heq =>
    obtain ⟨rfl, rfl⟩ := List.cons.inj heq
    rw [if_neg (by simp [hblank]), List.takeWhile_cons_of_pos hc, List.dropWhile_cons_of_pos hc]

/-- There is no chunk at a blank. -/
theorem not_atGap_of_read? {x : Chunk × List Char} (h : read? s = some x) : ¬AtGap s := by
  intro hgap
  cases s with
  | nil => cases h
  | cons c s =>
    have hc := hgap c rfl
    unfold read? at h
    split at h
    next heq => cases heq
    next heq =>
      obtain ⟨rfl, -⟩ := List.cons.inj heq
      exact absurd hc (by decide)
    next heq =>
      obtain ⟨rfl, -⟩ := List.cons.inj heq
      exact absurd hc (by decide)
    next heq =>
      obtain ⟨rfl, rfl⟩ := List.cons.inj heq
      rw [if_pos hc] at h
      cases h

theorem readAll?_of_atGap (h : AtGap s) : readAll? s = some ([], s) := by
  cases s with
  | nil => rw [readAll?]
  | cons c s => rw [readAll?, if_pos (h c rfl)]

theorem readAll?_of_read? {chunk : Chunk} (h : read? s = some (chunk, rest)) :
    readAll? s = (readAll? rest).map fun x => (chunk :: x.1, x.2) := by
  cases s with
  | nil => cases h
  | cons c s =>
    have hc : ¬isBlank c = true := fun hc => not_atGap_of_read? h fun d hd => by
      obtain rfl := Option.some.inj hd
      exact hc
    rw [readAll?, if_neg hc]
    split
    next hnone => rw [hnone] at h; cases h
    next chunk' rest' hsome =>
      rw [hsome] at h
      obtain ⟨rfl, rfl⟩ := Prod.mk.inj (Option.some.inj h)
      rfl

/-- A value ends at a gap. -/
theorem atGap_of_readAll? {cs : List Chunk} (h : readAll? s = some (cs, rest)) : AtGap rest := by
  fun_induction readAll? s generalizing cs rest with
  | case1 =>
    obtain ⟨-, rfl⟩ := Prod.mk.inj (Option.some.inj h)
    simp [AtGap]
  | case2 c s hc =>
    obtain ⟨-, rfl⟩ := Prod.mk.inj (Option.some.inj h)
    intro d hd
    obtain rfl := Option.some.inj hd
    exact hc
  | case3 => cases h
  | case4 c s _ chunk rest' _ ih =>
    obtain ⟨x, hx, heq⟩ := Option.map_eq_some_iff.mp h
    obtain ⟨-, rfl⟩ := Prod.mk.inj heq
    exact ih hx

end Chunk

namespace Grammar

variable {s rest : List Char} {d : Derivation}

theorem derives_quoted_iff {t : Terminal} {quote : Char} (ht : t.pattern = .quoted quote) :
    Derives (token t) s d rest ↔ ∃ tail text, s = quote :: tail
      ∧ Chunk.closing? quote tail = some (text, rest)
      ∧ d = .word (.kept t) (quote :: (text ++ [quote])) := by
  rw [token, derives_word_iff, Lexeme.pattern, ht]
  cases s with
  | nil => simp [Pattern.quoted, Pattern.greedy?_one_seq_nil]
  | cons c tail =>
    by_cases hc : c = quote
    · obtain rfl := hc
      rw [Pattern.greedy?_quoted]
      constructor
      · rintro ⟨text, h, rfl⟩
        obtain ⟨⟨inner, after⟩, hclose, heq⟩ := Option.map_eq_some_iff.mp h
        obtain ⟨rfl, rfl⟩ := Prod.mk.inj heq
        exact ⟨tail, inner, rfl, hclose, rfl⟩
      · rintro ⟨tail', text, heq, hclose, rfl⟩
        obtain ⟨-, rfl⟩ := List.cons.inj heq
        exact ⟨_, by rw [hclose]; rfl, rfl⟩
    · rw [Pattern.quoted, Pattern.greedy?_one_seq_cons, if_neg (by simpa using hc)]
      constructor
      · rintro ⟨text, h, -⟩
        cases h
      · rintro ⟨tail', text, heq, -⟩
        exact absurd (List.cons.inj heq).1 hc

/-- **The derivations of a chunk**: its first character tells what it is. -/
theorem derives_chunk_iff : Derives chunk s d rest
    ↔ ∃ c, Chunk.read? s = some (c, rest) ∧ d = c.derivation := by
  rw [chunk, derives_either_iff]
  constructor
  · rintro (⟨e, h, rfl⟩ | ⟨e, h, rfl⟩)
    · obtain ⟨hne, rfl, rfl⟩ :=
        (derives_run_iff (w := .kept .valueChunk) (p := isChunkChar) rfl).mp h
      cases s with
      | nil => exact absurd rfl hne
      | cons c s =>
        have hc : isChunkChar c = true :=
          Decidable.byContradiction fun hc => hne (List.takeWhile_cons_of_neg hc)
        exact ⟨_, Chunk.read?_of_isChunkChar hc, rfl⟩
    · rcases derives_either_iff.mp h with ⟨e, hdouble, rfl⟩ | ⟨e, hsingle, rfl⟩
      · obtain ⟨tail, text, rfl, hclose, rfl⟩ := (derives_quoted_iff rfl).mp hdouble
        exact ⟨.doubleQuoted text, by simp [Chunk.read?, hclose], rfl⟩
      · obtain ⟨tail, text, rfl, hclose, rfl⟩ := (derives_quoted_iff rfl).mp hsingle
        exact ⟨.singleQuoted text, by simp [Chunk.read?, hclose], rfl⟩
  · rintro ⟨c, h, rfl⟩
    unfold Chunk.read? at h
    split at h
    next => cases h
    next tail =>
      obtain ⟨⟨text, after⟩, hclose, heq⟩ := Option.map_eq_some_iff.mp h
      obtain ⟨rfl, rfl⟩ := Prod.mk.inj heq
      have htoken := (derives_quoted_iff (t := .doubleQuoted) rfl).mpr
        ⟨tail, text, rfl, hclose, rfl⟩
      exact Or.inr ⟨_, .left htoken, rfl⟩
    next tail =>
      obtain ⟨⟨text, after⟩, hclose, heq⟩ := Option.map_eq_some_iff.mp h
      obtain ⟨rfl, rfl⟩ := Prod.mk.inj heq
      have htoken := (derives_quoted_iff (t := .singleQuoted) rfl).mpr
        ⟨tail, text, rfl, hclose, rfl⟩
      exact Or.inr ⟨_, .right htoken, rfl⟩
    next e tail hdouble hsingle =>
      split at h
      · cases h
      next hb =>
        obtain ⟨rfl, rfl⟩ := Prod.mk.inj (Option.some.inj h)
        have hc : isChunkChar e = true := by
          have hdouble : e ≠ '"' := fun heq => hdouble heq
          have hsingle : e ≠ '\'' := fun heq => hsingle heq
          simp [isChunkChar, hb, hdouble, hsingle]
        have htoken := (derives_run_iff (w := .kept .valueChunk) (p := isChunkChar)
          (s := e :: tail) rfl).mpr ⟨by simp [hc], rfl, rfl⟩
        rw [List.takeWhile_cons_of_pos hc, List.dropWhile_cons_of_pos hc] at htoken
        exact Or.inl ⟨_, htoken, rfl⟩

/-- **The derivations of chunks up to a gap.** In front of the gap they cannot stop. -/
theorem derives_chunks_iff (hrest : AtGap rest) : Derives (.many chunk) s d rest
    ↔ ∃ cs, Chunk.readAll? s = some (cs, rest) ∧ d = Chunk.moreDerivation cs := by
  constructor
  · intro h
    induction d generalizing s with
    | more a b _ ih =>
      rcases derives_many_iff.mp h with ⟨heq, -⟩ | ⟨da, mid, db, ha, hmore, heq⟩
      · cases heq
      · obtain ⟨rfl, rfl⟩ := Derivation.more.inj heq
        obtain ⟨c, hread, rfl⟩ := derives_chunk_iff.mp ha
        obtain ⟨cs, hall, rfl⟩ := ih hmore
        exact ⟨c :: cs, by rw [Chunk.readAll?_of_read? hread, hall]; rfl, rfl⟩
    | _ =>
      rcases derives_many_iff.mp h with ⟨heq, rfl⟩ | ⟨da, mid, db, -, -, heq⟩
      · exact ⟨[], Chunk.readAll?_of_atGap hrest, heq⟩
      · cases heq
  · rintro ⟨cs, h, rfl⟩
    clear hrest
    fun_induction Chunk.readAll? s generalizing cs rest with
    | case1 | case2 =>
      obtain ⟨rfl, rfl⟩ := Prod.mk.inj (Option.some.inj h)
      exact .stop
    | case3 => cases h
    | case4 c s _ chunk rest' hread ih =>
      obtain ⟨⟨cs', after⟩, hall, heq⟩ := Option.map_eq_some_iff.mp h
      obtain ⟨rfl, rfl⟩ := Prod.mk.inj heq
      exact .more (derives_chunk_iff.mpr ⟨chunk, hread, rfl⟩) (ih cs' hall)

/-- **The derivations of a value that need not be there.** -/
theorem derives_optional_value_iff (hrest : AtGap rest) : Derives (optional value) s d rest
    ↔ ∃ cs, Chunk.readAll? s = some (cs, rest) ∧ d = Chunk.valueDerivation cs := by
  rw [optional, derives_either_iff]
  constructor
  · rintro (⟨e, h, rfl⟩ | ⟨e, h, rfl⟩)
    · obtain ⟨e', hvalue, rfl⟩ := derives_rule_iff.mp h
      obtain ⟨da, mid, db, ha, hmore, rfl⟩ := derives_seq_iff.mp hvalue
      obtain ⟨c, hread, rfl⟩ := derives_chunk_iff.mp ha
      obtain ⟨cs, hall, rfl⟩ := (derives_chunks_iff hrest).mp hmore
      exact ⟨c :: cs, by rw [Chunk.readAll?_of_read? hread, hall]; rfl, rfl⟩
    · obtain ⟨rfl, rfl⟩ := derives_empty_iff.mp h
      exact ⟨[], Chunk.readAll?_of_atGap hrest, rfl⟩
  · rintro ⟨cs, h, rfl⟩
    have hmany := (derives_chunks_iff hrest).mpr ⟨cs, h, rfl⟩
    cases cs with
    | nil =>
      rcases derives_many_iff.mp hmany with ⟨-, rfl⟩ | ⟨da, mid, db, -, -, heq⟩
      · exact Or.inr ⟨_, .empty, rfl⟩
      · cases heq
    | cons c cs =>
      rcases derives_many_iff.mp hmany with ⟨heq, -⟩ | ⟨da, mid, db, ha, hmore, heq⟩
      · cases heq
      · obtain ⟨rfl, rfl⟩ := Derivation.more.inj heq
        exact Or.inl ⟨_, .rule (.seq ha hmore), rfl⟩

end Grammar

/-- The chunks of a value and what is behind them are the text. -/
theorem Chunk.append_of_readAll? {s rest : List Char} {cs : List Chunk}
    (h : readAll? s = some (cs, rest)) : valueSource cs ++ rest = s := by
  have hvalue := (Grammar.derives_optional_value_iff (atGap_of_readAll? h)).mpr ⟨cs, h, rfl⟩
  rw [← source_valueDerivation]
  exact hvalue.append_eq

end Dockerfile
