import Mathlib.Logic.ExistsUnique
import Dockerfile.Proofs.Variable.Visibility

/-!
# Declarations on the line of a reference

The declarations of a command share its arguments between them: each has the text from its name to
the next name, the last one up to the end. So an offset in the arguments is in the text of exactly
one of them. Those in front of that one end in front of the offset, the others do not.

* `Declaration.StandsIn` — an offset is in the text of a declaration
* `Declaration.existsUnique_standsIn` — of exactly one
* `Declaration.filter_extent_le` — the declarations in front of that one are those that have ended
* `VariableTable.resolve_eq_or` — what is seen, on its own line or on an earlier one
-/

namespace Dockerfile

/-! ## Lists in order -/

/-- If just the first `k` elements pass a test, they are what is left. -/
theorem filter_eq_take {α : Type} {p : α → Bool} {l : List α} {k : Nat}
    (h : ∀ j a, l[j]? = some a → (p a = true ↔ j < k)) : l.filter p = l.take k := by
  induction l generalizing k with
  | nil => rw [List.filter_nil, List.take_nil]
  | cons a l ih =>
    have hfirst := h 0 a rfl
    have hrest := fun j b (hb : l[j]? = some b) => h (j + 1) b hb
    cases k with
    | zero =>
      rw [List.filter_cons_of_neg (by simp [hfirst]), ih (k := 0) fun j b hb => ?_,
        List.take_zero, List.take_zero]
      exact (hrest j b hb).trans (by omega)
    | succ k =>
      rw [List.filter_cons_of_pos (hfirst.mpr (Nat.succ_pos k)), List.take_succ_cons,
        ih fun j b hb => (hrest j b hb).trans Nat.succ_lt_succ_iff]

/-- In a list whose keys do not decrease, the elements below a bound stand in front. -/
theorem filter_lt_append {α : Type} {key : α → Nat} {l : List α}
    (h : l.Pairwise (fun a b => key a ≤ key b)) (bound : Nat) :
    l.filter (fun a => key a < bound) ++ l.filter (fun a => bound ≤ key a) = l := by
  induction l with
  | nil => rfl
  | cons a l ih =>
    obtain ⟨ha, hl⟩ := List.pairwise_cons.mp h
    by_cases hlt : key a < bound
    · rw [List.filter_cons_of_pos (by simpa using hlt),
        List.filter_cons_of_neg (by simpa using hlt), List.cons_append, ih hl]
    · have hle := Nat.le_of_not_lt hlt
      rw [List.filter_eq_nil_iff.mpr fun b hb => ?_, List.nil_append,
        List.filter_eq_self.mpr fun b hb => ?_]
      · rcases List.mem_cons.mp hb with rfl | hb
        · exact decide_eq_true hle
        · exact decide_eq_true (Nat.le_trans hle (ha b hb))
      · rcases List.mem_cons.mp hb with rfl | hb
        · simpa using hle
        · simpa using Nat.le_trans hle (ha b hb)

/-! ## The text of a declaration -/

namespace Declaration

/-- The offset is in the text of the declaration with the number `k`: it is not in front of its
name, but in front of the next declaration, or of the end if there is none. -/
def StandsIn (ds : List Declaration) (stop k offset : Nat) : Prop :=
  ∃ x, ds[k]? = some x ∧ x.start ≤ offset ∧ offset < (ds[k + 1]?.map (·.start)).getD stop

/-- An offset behind the first name and in front of the end is in the text of a declaration. -/
theorem exists_standsIn {x : Declaration} (ds : List Declaration) {stop offset : Nat}
    (hstart : x.start ≤ offset) (hstop : offset < stop) :
    ∃ k, StandsIn (x :: ds) stop k offset := by
  induction ds generalizing x with
  | nil => exact ⟨0, x, rfl, hstart, hstop⟩
  | cons y ds ih =>
    by_cases hy : offset < y.start
    · exact ⟨0, x, rfl, hstart, hy⟩
    · obtain ⟨k, hk⟩ := ih (Nat.le_of_not_lt hy)
      exact ⟨k + 1, hk⟩

section OfCommand

variable {c : Command} {line scope j k offset : Nat} {x y : Declaration}

/-- The names of a command stand in the order of their numbers. -/
theorem start_le_of_le (hx : (ofCommand c line scope)[j]? = some x)
    (hy : (ofCommand c line scope)[k]? = some y) (hjk : j ≤ k) : x.start ≤ y.start := by
  obtain ⟨hj, rfl⟩ := List.getElem?_eq_some_iff.mp hx
  obtain ⟨hk, rfl⟩ := List.getElem?_eq_some_iff.mp hy
  rcases Nat.lt_or_eq_of_le hjk with hlt | rfl
  · have hsorted := List.pairwise_iff_getElem.mp (sorted_ofCommand c line scope) j k hj hk hlt
    exact Nat.le_of_lt (Nat.lt_of_le_of_lt (Nat.le_add_right _ _) hsorted)
  · exact Nat.le_refl _

/-- The text of a declaration ends in front of the later ones. -/
theorem extent_le_start_of_lt (hx : (ofCommand c line scope)[j]? = some x)
    (hy : (ofCommand c line scope)[k]? = some y) (hjk : j < k) : x.extent ≤ y.start := by
  obtain ⟨next, hnext⟩ : ∃ next, (ofCommand c line scope)[j + 1]? = some next := by
    have hk := (List.getElem?_eq_some_iff.mp hy).1
    exact ⟨_, List.getElem?_eq_getElem (by omega)⟩
  rw [extent_of_getElem?_ofCommand hx, hnext]
  exact start_le_of_le hnext hy hjk

/-- **The declarations that have ended at an offset** are those in front of the one that the offset
is in the text of. -/
theorem extent_le_iff (h : StandsIn (ofCommand c line scope) c.argumentsEnd k offset)
    (hx : (ofCommand c line scope)[j]? = some x) : x.extent ≤ offset ↔ j < k := by
  obtain ⟨y, hy, hstart, hstop⟩ := h
  rw [← extent_of_getElem?_ofCommand hy] at hstop
  constructor
  · intro hle
    by_contra hjk
    rcases Nat.lt_or_eq_of_le (Nat.le_of_not_lt hjk) with hlt | rfl
    · have hafter := extent_le_start_of_lt hy hx hlt
      have hname := (extent_of_mem_ofCommand (List.mem_of_getElem? hx)).1
      rw [Declaration.stop] at hname
      omega
    · obtain rfl := Option.some.inj (hx.symm.trans hy)
      omega
  · intro hjk
    exact Nat.le_trans (extent_le_start_of_lt hx hy hjk) hstart

/-- **An offset in the arguments is in the text of exactly one declaration.** -/
theorem existsUnique_standsIn (hne : ofCommand c line scope ≠ []) (hwords : AtWord c.arguments)
    (hstart : c.argumentsStart ≤ offset) (hstop : offset < c.argumentsEnd) :
    ∃! k, StandsIn (ofCommand c line scope) c.argumentsEnd k offset := by
  obtain ⟨x, ds, hds⟩ := List.exists_cons_of_ne_nil hne
  have hfirst : x.start = c.argumentsStart := start_of_head?_ofCommand hwords (by rw [hds]; rfl)
  obtain ⟨k, hk⟩ := exists_standsIn ds (Nat.le_trans (Nat.le_of_eq hfirst) hstart) hstop
  rw [← hds] at hk
  refine ⟨k, hk, fun j hj => ?_⟩
  -- by the one number just as by the other, the declaration `j` has not ended, nor has `k`
  obtain ⟨y, hy, -⟩ := id hj
  obtain ⟨z, hz, -⟩ := id hk
  have hyended := (extent_le_iff hj hy).symm.trans (extent_le_iff hk hy)
  have hzended := (extent_le_iff hj hz).symm.trans (extent_le_iff hk hz)
  omega

/-- The declarations that have ended are the first ones. -/
theorem filter_extent_le (h : StandsIn (ofCommand c line scope) c.argumentsEnd k offset) :
    (ofCommand c line scope).filter (fun x => x.extent ≤ offset)
      = (ofCommand c line scope).take k := by
  refine filter_eq_take fun j x hx => ?_
  rw [decide_eq_true_eq]
  exact extent_le_iff h hx

end OfCommand

end Declaration

/-! ## What is seen -/

namespace Declaration

variable {d : Declaration} {name : List Char} {stage line : Nat}

/-- What is visible does not stand on a later line. -/
theorem Visible.le_line {offset? : Option Int} (h : d.Visible name stage line offset?) :
    d.line ≤ line := by
  obtain ⟨-, -, hlt | ⟨heq, -⟩⟩ := h <;> omega

/-- From the start of a line, just the declarations on earlier lines are visible. -/
theorem visible_none_iff (offset : Int) : d.Visible name stage line none
    ↔ d.Visible name stage line (some offset) ∧ d.line < line := by
  constructor
  · rintro ⟨hname, hscope, hlt | ⟨-, o, ho, -⟩⟩
    · exact ⟨⟨hname, hscope, Or.inl hlt⟩, by omega⟩
    · cases ho
  · rintro ⟨⟨hname, hscope, -⟩, hlt⟩
    exact ⟨hname, hscope, Or.inl (by omega)⟩

end Declaration

namespace VariableTable

/-- **What is seen from an offset of a line**: the last of the visible declarations of this line, or
else what is seen from the start of the line. -/
theorem resolve_eq_or {t : VariableTable}
    (hline : t.declarations.Pairwise (fun a b => a.line ≤ b.line))
    (hscope : t.declarations.Pairwise (fun a b => a.scope ≤ b.scope))
    (name : List Char) (line offset : Nat) :
    t.resolve name line (some offset)
      = (((t.declaredBy line).filter
          fun d => d.Visible name (t.stageOf line) line (some offset)).getLast?).or
        (t.resolve name line none) := by
  have hown : (t.declaredBy line).filter
        (fun d => d.Visible name (t.stageOf line) line (some offset))
      = (t.declarations.filter fun d => line ≤ d.line).filter
          fun d => d.Visible name (t.stageOf line) line (some offset) := by
    rw [declaredBy, List.filter_filter, List.filter_filter]
    refine List.filter_congr fun d _ => ?_
    rw [Bool.eq_iff_iff, Bool.and_eq_true, Bool.and_eq_true, decide_eq_true_eq, decide_eq_true_eq,
      beq_iff_eq]
    refine and_congr_right fun hd => ?_
    have := hd.le_line
    omega
  have hearlier : t.declarations.filter (fun d => d.Visible name (t.stageOf line) line none)
      = (t.declarations.filter fun d => d.line < line).filter
          fun d => d.Visible name (t.stageOf line) line (some offset) := by
    rw [List.filter_filter]
    refine List.filter_congr fun d _ => ?_
    rw [Bool.eq_iff_iff, Bool.and_eq_true, decide_eq_true_eq, decide_eq_true_eq, decide_eq_true_eq]
    exact Declaration.visible_none_iff offset
  rw [resolve_eq_getLast?_visible hline hscope, resolve_eq_getLast?_visible hline hscope, hown,
    hearlier, ← List.getLast?_append, ← List.filter_append, filter_lt_append hline]

end VariableTable

end Dockerfile
