import Mathlib.Data.List.TakeWhile
import Dockerfile.Syntax.Value

/-!
# What a terminal matches

The terminals of the line grammars are patterns over classes of characters. A pattern is matched
with backtracking: all ways to go on are tried, first those that take more. The first match found is
the greedy one. The readers of the line grammars find the same match without going back.

* `Pattern.greedy?` — the greedy match
* `greedy?_run`, `greedy?_quoted`, `greedy?_line` — what the readers find
-/

namespace Dockerfile

/-! ## Patterns -/

/-- A pattern for the start of a text. -/
inductive Pattern
  /-- One character of a class. -/
  | one (p : Char → Bool)
  /-- Any number of characters of a class. -/
  | many (p : Char → Bool)
  | seq (a b : Pattern)
  | optional (a : Pattern)

namespace Pattern

/-- The runs of characters of a class that a text starts with, from the longest one down to the
empty one, each with the rest of the text. -/
def runs (p : Char → Bool) : List Char → List (List Char × List Char)
  | [] => [([], [])]
  | c :: s => (if p c then (runs p s).map fun x => (c :: x.1, x.2) else []) ++ [([], c :: s)]

/-- The matches at the start of a text, each with the rest of the text, in the order in which they
are found. -/
def found : Pattern → List Char → List (List Char × List Char)
  | one _, [] => []
  | one p, c :: s => if p c then [([c], s)] else []
  | many p, s => runs p s
  | seq a b, s => (a.found s).flatMap fun x => (b.found x.2).map fun y => (x.1 ++ y.1, y.2)
  | optional a, s => a.found s ++ [([], s)]

/-- The match that is found first, and the rest of the text. -/
def greedy? (a : Pattern) (s : List Char) : Option (List Char × List Char) := (a.found s).head?

/-- One character of a class and then any number of them. -/
def run (p : Char → Bool) : Pattern := .seq (.one p) (.many p)

/-- Anything between a quote and the next one. -/
def quoted (quote : Char) : Pattern :=
  .seq (.one (· == quote)) (.seq (.many (· != quote)) (.one (· == quote)))

/-- A non-blank character, and then, if there is one, the line up to a last non-blank character. -/
def line : Pattern :=
  .seq (.one (!isBlank ·)) (.optional (.seq (.many (· != '\n')) (.one (!isBlank ·))))

/-! ## A match and the rest are the text -/

theorem append_of_mem_runs {p : Char → Bool} {s : List Char} {x : List Char × List Char}
    (h : x ∈ runs p s) : x.1 ++ x.2 = s := by
  induction s generalizing x with
  | nil =>
    rw [runs, List.mem_singleton] at h
    rw [h]
    rfl
  | cons c s ih =>
    rw [runs] at h
    rcases List.mem_append.mp h with h | h
    · split at h
      · obtain ⟨y, hy, rfl⟩ := List.mem_map.mp h
        exact congrArg (c :: ·) (ih hy)
      · simp at h
    · rw [List.mem_singleton] at h
      rw [h]
      rfl

theorem append_of_mem_found {a : Pattern} {s : List Char} {x : List Char × List Char}
    (h : x ∈ a.found s) : x.1 ++ x.2 = s := by
  induction a generalizing s x with
  | one p =>
    cases s with
    | nil => simp [found] at h
    | cons c s =>
      rw [found] at h
      split at h
      · rw [List.mem_singleton] at h
        rw [h]
        rfl
      · simp at h
  | many p => exact append_of_mem_runs h
  | seq a b iha ihb =>
    obtain ⟨y, hy, h⟩ := List.mem_flatMap.mp h
    obtain ⟨z, hz, rfl⟩ := List.mem_map.mp h
    rw [List.append_assoc, ihb hz, iha hy]
  | optional a ih =>
    rcases List.mem_append.mp h with h | h
    · exact ih h
    · rw [List.mem_singleton] at h
      rw [h]
      rfl

/-- **The greedy match and the rest are the text.** -/
theorem append_of_greedy? {a : Pattern} {s text rest : List Char}
    (h : a.greedy? s = some (text, rest)) : text ++ rest = s :=
  append_of_mem_found (List.mem_of_head? h)

/-! ## Going on -/

section Step

variable {p : Char → Bool} {b : Pattern} {c : Char} {s text rest : List Char}

theorem greedy?_one_eq_some_iff : (one p).greedy? s = some (text, rest)
    ↔ ∃ c, s = c :: rest ∧ p c = true ∧ text = [c] := by
  cases s with
  | nil => simp [greedy?, found]
  | cons c s =>
    rw [greedy?, found]
    by_cases hc : p c = true
    · rw [if_pos hc]
      constructor
      · intro h
        obtain ⟨rfl, rfl⟩ := Prod.mk.inj (Option.some.inj h)
        exact ⟨c, rfl, hc, rfl⟩
      · rintro ⟨d, heq, -, rfl⟩
        obtain ⟨rfl, rfl⟩ := List.cons.inj heq
        rfl
    · rw [if_neg hc]
      constructor
      · intro h
        cases h
      · rintro ⟨d, heq, hd, -⟩
        exact absurd ((List.cons.inj heq).1 ▸ hd) hc

theorem greedy?_one_seq_nil : (seq (one p) b).greedy? [] = none := rfl

/-- Behind one character of the class the match goes on. -/
theorem greedy?_one_seq_cons : (seq (one p) b).greedy? (c :: s)
    = if p c then (b.greedy? s).map fun x => (c :: x.1, x.2) else none := by
  rw [greedy?, found, found]
  split
  · rw [List.flatMap_singleton, List.head?_map]
    rfl
  · rfl

/-- What starts with one character of a class is not empty. -/
theorem ne_nil_of_greedy?_one_seq (h : (seq (one p) b).greedy? s = some (text, rest)) :
    text ≠ [] := by
  cases s with
  | nil => cases h
  | cons c s =>
    rw [greedy?_one_seq_cons] at h
    split at h
    · obtain ⟨x, -, hx⟩ := Option.map_eq_some_iff.mp h
      rw [← (Prod.mk.inj hx).1]
      exact List.cons_ne_nil _ _
    · cases h

theorem greedy?_optional : (optional b).greedy? s = (b.greedy? s).or (some ([], s)) := by
  rw [greedy?, found, List.head?_append]
  rfl

/-- Inside a run the longer matches are found first. -/
theorem greedy?_many_seq_cons (hc : p c = true) : (seq (many p) b).greedy? (c :: s)
    = (((seq (many p) b).greedy? s).map fun x => (c :: x.1, x.2)).or (b.greedy? (c :: s)) := by
  have hmore : ((runs p s).map fun x => (c :: x.1, x.2)).flatMap
        (fun x => (b.found x.2).map fun y => (x.1 ++ y.1, y.2))
      = ((seq (many p) b).found s).map fun x => (c :: x.1, x.2) := by
    rw [found, found, List.flatMap_map, List.map_flatMap]
    simp only [List.map_map]
    rfl
  rw [greedy?, found, found, runs, if_pos hc, List.flatMap_append, hmore, List.head?_append,
    List.head?_map, List.flatMap_singleton, List.head?_map]
  exact congrArg (Option.or _) (congrFun Option.map_id (b.greedy? (c :: s)))

theorem greedy?_many_seq_of_not (hc : p c = false) :
    (seq (many p) b).greedy? (c :: s) = b.greedy? (c :: s) := by
  rw [greedy?, found, found, runs, hc, if_neg Bool.false_ne_true, List.nil_append,
    List.flatMap_singleton, List.head?_map]
  exact congrFun Option.map_id (b.greedy? (c :: s))

theorem greedy?_many : (many p).greedy? s = some (s.takeWhile p, s.dropWhile p) := by
  induction s with
  | nil => rfl
  | cons c s ih =>
    have ih : (runs p s).head? = some (s.takeWhile p, s.dropWhile p) := ih
    rw [greedy?, found, runs]
    by_cases hc : p c = true
    · rw [if_pos hc, List.head?_append, List.head?_map, ih, List.takeWhile_cons_of_pos hc,
        List.dropWhile_cons_of_pos hc]
      rfl
    · rw [if_neg hc, List.takeWhile_cons_of_neg hc, List.dropWhile_cons_of_neg hc]
      rfl

end Step

/-! ## The patterns of the line grammars -/

/-- **A run of a class**: all of it, if there is any. -/
theorem greedy?_run (p : Char → Bool) (s : List Char) : (run p).greedy? s
    = if s.takeWhile p = [] then none else some (s.takeWhile p, s.dropWhile p) := by
  cases s with
  | nil => rfl
  | cons c s =>
    rw [run, greedy?_one_seq_cons, greedy?_many]
    by_cases hc : p c = true
    · rw [if_pos hc, List.takeWhile_cons_of_pos hc, List.dropWhile_cons_of_pos hc,
        if_neg (List.cons_ne_nil _ _)]
      rfl
    · rw [if_neg hc, List.takeWhile_cons_of_neg hc, if_pos rfl]

/-- The text up to the next quote is that in front of the first one. -/
theorem greedy?_closing (quote : Char) (s : List Char) :
    (seq (many (· != quote)) (one (· == quote))).greedy? s
      = (Chunk.closing? quote s).map fun x => (x.1 ++ [quote], x.2) := by
  unfold Chunk.closing?
  induction s with
  | nil => rfl
  | cons c s ih =>
    by_cases hc : c = quote
    · have hp : (c != quote) = false := by simp [hc]
      rw [greedy?_many_seq_of_not (p := (· != quote)) hp, List.dropWhile_cons_of_neg (by simp [hc]),
        List.takeWhile_cons_of_neg (by simp [hc])]
      simp [greedy?, found, hc]
    · have hp : (c != quote) = true := bne_iff_ne.mpr hc
      have hone : (one (· == quote)).greedy? (c :: s) = none := by simp [greedy?, found, hc]
      rw [greedy?_many_seq_cons (p := (· != quote)) hp, ih, hone, Option.or_none,
        List.dropWhile_cons_of_pos (p := (· != quote)) hp,
        List.takeWhile_cons_of_pos (p := (· != quote)) hp]
      split <;> rfl

/-- **A quoted string** ends at the next quote. -/
theorem greedy?_quoted (quote : Char) (s : List Char) : (quoted quote).greedy? (quote :: s)
    = (Chunk.closing? quote s).map fun x => (quote :: (x.1 ++ [quote]), x.2) := by
  rw [quoted, greedy?_one_seq_cons, if_pos (beq_self_eq_true quote), greedy?_closing,
    Option.map_map]
  rfl

/-- The longest start of a text that ends with a non-blank character and has line feeds nowhere else
but there. -/
theorem greedy?_upToNonBlank (s : List Char) :
    (seq (many (· != '\n')) (one (!isBlank ·))).greedy? s
      = match s.dropWhile (· != '\n') with
        | lineFeed :: after => some (s.takeWhile (· != '\n') ++ [lineFeed], after)
        | [] => if trimEnd s = [] then none else some (trimEnd s, s.drop (trimEnd s).length) := by
  induction s with
  | nil => rfl
  | cons c s ih =>
    by_cases hc : c = '\n'
    · have hp : (c != '\n') = false := by simp [hc]
      rw [greedy?_many_seq_of_not (p := (· != '\n')) hp, List.dropWhile_cons_of_neg (by simp [hc]),
        List.takeWhile_cons_of_neg (by simp [hc]), hc]
      rfl
    · have hp : (c != '\n') = true := bne_iff_ne.mpr hc
      rw [greedy?_many_seq_cons (p := (· != '\n')) hp, ih,
        List.dropWhile_cons_of_pos (p := (· != '\n')) hp,
        List.takeWhile_cons_of_pos (p := (· != '\n')) hp]
      split
      next => rfl
      next =>
        -- there is no line feed: the last non-blank character is behind `c`, or it is `c`, if any
        rw [trimEnd]
        cases htrim : trimEnd s with
        | cons d kept => rfl
        | nil => cases hb : isBlank c <;> simp [greedy?, found, hb]

/-- **The rest of a line** up to its last non-blank character. -/
theorem greedy?_line (s : List Char) : line.greedy? s = argumentRun s := by
  cases s with
  | nil => rfl
  | cons c s =>
    rw [line, greedy?_one_seq_cons, argumentRun, greedy?_optional, greedy?_upToNonBlank]
    cases hb : isBlank c with
    | true => rfl
    | false =>
      simp only [Bool.not_false, if_true, Bool.false_eq_true, if_false]
      cases hd : s.dropWhile (· != '\n') with
      | cons lineFeed after => rfl
      | nil =>
        have hline : s.takeWhile (· != '\n') = s :=
          List.takeWhile_eq_self_iff.mpr (List.dropWhile_eq_nil_iff.mp hd)
        simp only [hline]
        split
        next htrim => simp [htrim]
        next => rfl

end Pattern

end Dockerfile
