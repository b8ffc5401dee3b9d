import Dockerfile.Proofs.Variable.Table

/-!
# The latest visible declaration

`VariableTable.resolve` stops at the first declaration below the line of the reference, keeps the
last declaration of the stage and the last one of scope 0 apart, and prefers the former. Here it is
shown that all of this comes to one rule about places: **the last declaration that is visible
counts**.

The two orders of the table (`Dockerfile.Proofs.Variable.Table`) carry the proof.

* The lines do not decrease, so to stop at the first later line is to leave out all later lines.
* The scopes do not decrease, so the declarations of scope 0 stand in front of those of a stage, and
  to prefer the stage is to take the last of both.
-/

namespace Dockerfile

/-- A reference to `name` on a line of the given stage sees the declaration: it has the name,
belongs to scope 0 or to the stage, and stands on an earlier line or ends, on the same line, in
front of the offset of the reference. Without an offset only earlier lines count. -/
def Declaration.Visible (d : Declaration) (name : List Char) (stage : Nat) (line : Int)
    (offset? : Option Int) : Prop :=
  d.name = name ∧ (d.scope = 0 ∨ d.scope = stage) ∧
    ((d.line : Int) < line ∨ (d.line : Int) = line ∧ ∃ offset ∈ offset?, (d.extent : Int) ≤ offset)

instance (d : Declaration) (name : List Char) (stage : Nat) (line : Int) (offset? : Option Int) :
    Decidable (d.Visible name stage line offset?) :=
  inferInstanceAs (Decidable (_ ∧ _ ∧ (_ ∨ _ ∧ ∃ offset ∈ offset?, _)))

/-! ## Sorted lists -/

section Sorted

variable {α : Type} {key : α → Nat} {l : List α}

/-- In a list whose keys do not decrease, a bound on the key cuts off a tail. -/
theorem takeWhile_le_eq_filter (h : l.Pairwise (fun a b => key a ≤ key b)) (bound : Int) :
    l.takeWhile (fun a => (key a : Int) ≤ bound) = l.filter (fun a => (key a : Int) ≤ bound) := by
  induction l with
  | nil => rfl
  | cons a l ih =>
    obtain ⟨ha, hl⟩ := List.pairwise_cons.mp h
    by_cases hle : (key a : Int) ≤ bound
    · rw [List.takeWhile_cons_of_pos (by simpa using hle),
        List.filter_cons_of_pos (by simpa using hle), ih hl]
    · rw [List.takeWhile_cons_of_neg (by simpa using hle),
        List.filter_cons_of_neg (by simpa using hle), eq_comm, List.filter_eq_nil_iff]
      intro b hb
      have := ha b hb
      simp only [decide_eq_true_eq]
      omega

/-- In a list whose keys do not decrease, what has key 0 stands in front of all else. -/
theorem filter_zero_or_eq_append (h : l.Pairwise (fun a b => key a ≤ key b)) (k : Nat) :
    l.filter (fun a => key a = 0 ∨ key a = k)
      = l.filter (fun a => key a == 0) ++ l.filter (fun a => key a != 0 && key a == k) := by
  induction l with
  | nil => rfl
  | cons a l ih =>
    obtain ⟨ha, hl⟩ := List.pairwise_cons.mp h
    by_cases h0 : key a = 0
    · rw [List.filter_cons_of_pos (by simp [h0]), List.filter_cons_of_pos (by simpa using h0),
        List.filter_cons_of_neg (by simp [h0]), ih hl, List.cons_append]
    · have hnone : l.filter (fun b => key b == 0) = [] := by
        rw [List.filter_eq_nil_iff]
        intro b hb
        have := ha b hb
        simp only [beq_iff_eq]
        omega
      have hih := ih hl
      rw [hnone, List.nil_append] at hih
      by_cases hk : key a = k
      · have hk0 : ¬k = 0 := hk ▸ h0
        rw [List.filter_cons_of_pos (by simp [hk]), List.filter_cons_of_neg (by simpa using h0),
          List.filter_cons_of_pos (by simp [hk, hk0]), hnone, List.nil_append, hih]
      · rw [List.filter_cons_of_neg (by simp [h0, hk]), List.filter_cons_of_neg (by simpa using h0),
          List.filter_cons_of_neg (by simp [hk]), hnone, List.nil_append, hih]

end Sorted

/-- The last element that passes a test is the one with none that passes behind it. -/
theorem getLast?_filter_eq_some_iff {α : Type} {p : α → Bool} {l : List α} {a : α} :
    (l.filter p).getLast? = some a
      ↔ p a = true ∧ ∃ front back, l = front ++ a :: back ∧ ∀ b ∈ back, p b = false := by
  rw [List.getLast?_filter, List.find?_eq_some_iff_append]
  refine and_congr_right fun _ => ⟨?_, ?_⟩
  · rintro ⟨front, back, he, hnot⟩
    refine ⟨back.reverse, front.reverse, by simpa using congrArg List.reverse he, ?_⟩
    intro b hb
    simpa using hnot b (List.mem_reverse.mp hb)
  · rintro ⟨front, back, rfl, hnot⟩
    refine ⟨back.reverse, front.reverse, by simp, ?_⟩
    intro b hb
    simpa using hnot b (List.mem_reverse.mp hb)

/-! ## Resolution -/

namespace VariableTable

/-- `resolve` on a table in both orders: the last visible declaration. -/
theorem resolve_eq_getLast?_visible {t : VariableTable}
    (hline : t.declarations.Pairwise (fun a b => a.line ≤ b.line))
    (hscope : t.declarations.Pairwise (fun a b => a.scope ≤ b.scope))
    (name : List Char) (line : Int) (offset? : Option Int) :
    t.resolve name line offset?
      = (t.declarations.filter
          fun d => d.Visible name (t.stageOf line) line offset?).getLast? := by
  -- the declarations in reach, whatever their scope
  have hseen : (t.declarations.takeWhile fun d => (d.line : Int) ≤ line).filter
        (fun d => d.name == name && endsBefore line offset? d)
      = t.declarations.filter fun d =>
          (d.line : Int) ≤ line && (d.name == name && endsBefore line offset? d) := by
    rw [takeWhile_le_eq_filter hline, List.filter_filter]
    simp only [Bool.and_comm]
  unfold resolve
  simp only
  rw [hseen, Option.orElse_eq_orElse, Option.orElse_eq_or, ← List.getLast?_append,
    ← filter_zero_or_eq_append (hscope.sublist List.filter_sublist), List.filter_filter]
  congr 1
  refine List.filter_congr fun d _ => ?_
  rw [Bool.eq_iff_iff]
  simp only [endsBefore, Option.any_eq_true, Bool.and_eq_true, Bool.or_eq_true,
    decide_eq_true_eq, beq_iff_eq, bne_iff_ne]
  unfold Declaration.Visible
  constructor
  · rintro ⟨hs, hle, hn, hne | ho⟩
    · exact ⟨hn, hs, Or.inl (by omega)⟩
    · by_cases heq : (d.line : Int) = line
      · exact ⟨hn, hs, Or.inr ⟨heq, ho⟩⟩
      · exact ⟨hn, hs, Or.inl (by omega)⟩
  · rintro ⟨hn, hs, hlt | ⟨heq, ho⟩⟩
    · exact ⟨hs, by omega, hn, Or.inl (by omega)⟩
    · exact ⟨hs, by omega, hn, Or.inr ho⟩

/--
**What a reference resolves to is the latest declaration that is visible to it.**

It is the last one of them in the order of the document, whether or not it has a value; so a
declaration of a name alone hides the values before it. If none is visible, there is no result.
-/
theorem resolve_eq_latest_visible {instructions : List (Nat × Instruction)}
    (h : (instructions.map Prod.fst).Pairwise (· < ·)) (name : List Char) (line : Int)
    (offset? : Option Int) :
    let t := ofInstructions instructions
    let Sees := fun d : Declaration => d.Visible name (t.stageOf line) line offset?
    t.resolve name line offset? = (t.declarations.filter Sees).getLast? ∧
    (t.resolve name line offset? = none ↔ ∀ d ∈ t.declarations, ¬Sees d) ∧
    ∀ d, t.resolve name line offset? = some d ↔
      Sees d ∧ ∃ front back, t.declarations = front ++ d :: back ∧ ∀ b ∈ back, ¬Sees b := by
  intro t Sees
  have hlast : t.resolve name line offset? = (t.declarations.filter Sees).getLast? :=
    resolve_eq_getLast?_visible (sorted_line_after 0 h) (sorted_scope_after 0 _) name line offset?
  refine ⟨hlast, ?_, fun d => ?_⟩
  · rw [hlast, List.getLast?_eq_none_iff, List.filter_eq_nil_iff]
    simp only [decide_eq_true_eq]
  · rw [hlast, getLast?_filter_eq_some_iff]
    simp only [decide_eq_true_eq, decide_eq_false_iff_not]

/-- `ARG a=1`, `FROM x`, `ARG a=2`, `ARG a`, `RUN $a`: the name alone hides both values. -/
theorem resolve_name_alone_hides :
    let arg := fun s : List Char => Instruction.mk ⟨['A', 'R', 'G'], 0, s, 4⟩ none
    let instructions : List (Nat × Instruction) :=
      [(0, arg ['a', '=', '1']), (1, ⟨⟨['F', 'R', 'O', 'M'], 0, ['x'], 5⟩, none⟩),
        (2, arg ['a', '=', '2']), (3, arg ['a']), (4, ⟨⟨['R', 'U', 'N'], 0, ['$', 'a'], 4⟩, none⟩)]
    (instructions.map Prod.fst).Pairwise (· < ·) ∧
      ((ofInstructions instructions).resolve ['a'] 4 (some 4)).map (fun d => (d.line, d.value))
        = some (3, none) := by
  intro arg instructions
  have h : (instructions.map Prod.fst).Pairwise (· < ·) := by decide
  refine ⟨h, ?_⟩
  rw [(resolve_eq_latest_visible h ['a'] 4 (some 4)).1]
  decide +kernel

end VariableTable

end Dockerfile
