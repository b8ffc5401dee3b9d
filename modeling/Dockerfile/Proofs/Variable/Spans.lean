import Dockerfile.Proofs.Variable.Forms
import Dockerfile.Proofs.Variable.Names

/-!
# The spans of references

The search for references takes the text from the left and goes on behind each one it has found. So
references lie in the text, one behind the other, and none of them is empty. Two of them can touch:
then the end of the first one is the start of the second one, and this is the one offset that both
of them contain.

* `Reference.span_of_mem_find` — a reference lies in the text that it is looked for in
* `Reference.sorted_find` — each one ends at or in front of the start of the next one
* `find?_contains_of_mem` — which one is found at an offset
-/

namespace Dockerfile

/-- A form starts with a dollar sign. -/
theorem ReferenceForm.source_length_pos (f : ReferenceForm) : 0 < f.source.length := by
  cases f <;> simp [source]

/-! ## Search -/

namespace Reference

variable {escape : List Char} {line : Nat}

/-- The span of a reference is not empty and ends inside the text. -/
theorem stop_of_mem_search {previous : Option Char} {offset : Nat} {s : List Char} {r : Reference}
    (h : r ∈ search escape line previous offset s) :
    r.start < r.stop ∧ r.stop ≤ offset + s.length := by
  fun_induction search escape line previous offset s with
  | case1 => simp at h
  | case2 _ offset s _ ih =>
    have := ih h
    rw [List.length_cons]
    omega
  | case3 _ offset s form rest hform stop more _ ih =>
    -- a literal one is passed over as a whole
    have hlength := congrArg List.length (ReferenceForm.afterDollar?_append hform)
    rw [List.length_append] at hlength
    have := ih h
    omega
  | case4 _ offset s form rest hform stop more _ ih =>
    have hlength := congrArg List.length (ReferenceForm.afterDollar?_append hform)
    rw [List.length_append] at hlength
    rcases List.mem_cons.mp h with rfl | h
    · have := form.source_length_pos
      exact ⟨by show offset < stop; omega, by show stop ≤ _; omega⟩
    · have := ih h
      omega
  | case5 _ offset c s _ ih =>
    have := ih h
    rw [List.length_cons]
    omega

/-- Each reference ends at or in front of the start of the next one. -/
theorem sorted_search (previous : Option Char) (offset : Nat) (s : List Char) :
    (search escape line previous offset s).Pairwise (fun a b => a.stop ≤ b.start) := by
  fun_induction search escape line previous offset s with
  | case1 => exact List.Pairwise.nil
  | case2 _ offset s _ ih => exact ih
  | case3 _ offset s form rest _ stop more _ ih => exact ih
  | case4 _ offset s form rest _ stop more _ ih =>
    exact List.pairwise_cons.mpr ⟨fun r hr => le_start_of_mem_search hr, ih⟩
  | case5 _ offset c s _ ih => exact ih

variable {offset : Nat} {s : List Char}

/-- **A reference lies in the text that it is looked for in**, and is not empty. -/
theorem span_of_mem_find {r : Reference} (h : r ∈ find escape line offset s) :
    offset ≤ r.start ∧ r.start < r.stop ∧ r.stop ≤ offset + s.length :=
  ⟨le_start_of_mem_search h, stop_of_mem_search h⟩

/-- **Each reference ends at or in front of the start of the next one.** -/
theorem sorted_find : (find escape line offset s).Pairwise (fun a b => a.stop ≤ b.start) :=
  sorted_search none offset s

end Reference

/-! ## The reference at an offset -/

section FirstOfMany

variable {rs : List ResolvedReference} (hsorted : rs.Pairwise (fun a b => a.stop ≤ b.start))

include hsorted

/-- **The reference that an offset is inside of is found there**, unless another one ends at the
offset. -/
theorem find?_contains_of_mem {r : ResolvedReference} (hr : r ∈ rs) {offset : Nat}
    (ho : r.start ≤ offset ∧ offset < r.stop) (hstop : ∀ q ∈ rs, q.stop ≠ offset) :
    rs.find? (·.contains offset) = some r := by
  obtain ⟨front, back, hsplit⟩ := List.append_of_mem hr
  rw [List.find?_eq_some_iff_append]
  refine ⟨Reference.contains_iff.mpr ⟨ho.1, Nat.le_of_lt ho.2⟩, front, back, hsplit,
    fun a ha => ?_⟩
  have hne := hstop a (by rw [hsplit]; exact List.mem_append_left _ ha)
  rw [hsplit] at hsorted
  have hle := (List.pairwise_append.mp hsorted).2.2 a ha r (List.mem_cons_self ..)
  rw [Bool.not_eq_true', ← Bool.not_eq_true, Reference.contains_iff]
  omega

variable (hspan : ∀ q ∈ rs, q.start < q.stop)

include hspan

/-- A reference that ends at an offset is found there. -/
theorem find?_contains_of_stop {q : ResolvedReference} (hq : q ∈ rs) :
    rs.find? (·.contains q.stop) = some q := by
  obtain ⟨front, back, hsplit⟩ := List.append_of_mem hq
  rw [List.find?_eq_some_iff_append]
  refine ⟨Reference.contains_iff.mpr ⟨Nat.le_of_lt (hspan q hq), Nat.le_refl _⟩, front, back,
    hsplit, fun a ha => ?_⟩
  -- those in front end before it starts
  rw [hsplit] at hsorted
  have hle := (List.pairwise_append.mp hsorted).2.2 a ha q (List.mem_cons_self ..)
  have hlt := hspan q hq
  rw [Bool.not_eq_true', ← Bool.not_eq_true, Reference.contains_iff]
  omega

/-- If another reference ends at an offset inside of one, the offset is where the latter starts. -/
theorem start_of_stop {q r : ResolvedReference} (hq : q ∈ rs) (hr : r ∈ rs)
    (ho : r.start ≤ q.stop ∧ q.stop < r.stop) : q.stop = r.start := by
  obtain ⟨front, back, hsplit⟩ := List.append_of_mem hr
  rw [hsplit] at hsorted hq
  have hrq := hspan r hr
  rcases List.mem_append.mp hq with hq | hq
  · have := (List.pairwise_append.mp hsorted).2.2 q hq r (List.mem_cons_self ..)
    omega
  · rcases List.mem_cons.mp hq with rfl | hq
    · omega
    · have := (List.pairwise_cons.mp (List.pairwise_append.mp hsorted).2.1).1 q hq
      have := hspan q (by rw [hsplit]; simp [hq])
      omega

end FirstOfMany

end Dockerfile
