import Dockerfile.Proofs.Line.Joining

/-!
# Going on in the middle

Where a logical line starts, nothing of the lines before counts but the state that they have led to.
So what `foldLines` makes of the lines up to there is the same whatever comes after them.

* `Reaches` — the lines up to the start of a logical line, what is made of them, and the state
* `exists_reaches_of_mem` — every item is made at such a place
-/

namespace Dockerfile

/-! ## One logical line -/

/-- A continuation that leaves lines over takes the same lines whatever follows. -/
theorem continued_resume {escape : List Char} {ls : List PhysicalLine}
    (h : (continued escape ls).2 ≠ []) :
    ∃ used, ls = used ++ (continued escape ls).2
      ∧ ∀ rest, continued escape (used ++ rest) = ((continued escape ls).1, rest) := by
  induction ls with
  | nil => exact absurd rfl h
  | cons l ls ih =>
    cases hc : l.isComment with
    | true =>
      rw [continued_comment hc] at h ⊢
      obtain ⟨used, hsplit, hrest⟩ := ih h
      refine ⟨l :: used, congrArg (l :: ·) hsplit, fun rest => ?_⟩
      rw [List.cons_append, continued_comment hc, hrest]
    | false =>
      cases hm : l.beforeMarker? escape with
      | none =>
        -- the line that ends the continuation is among the lines taken
        rw [continued_closed hc hm]
        exact ⟨[l], rfl, continued_closed hc hm⟩
      | some kept =>
        rw [continued_marked hc hm] at h ⊢
        obtain ⟨used, hsplit, hrest⟩ := ih h
        refine ⟨l :: used, congrArg (l :: ·) hsplit, fun rest => ?_⟩
        rw [List.cons_append, continued_marked hc hm, hrest]

/-- A logical line that leaves lines over takes the same lines whatever follows. -/
theorem join_resume {escape : List Char} {l : PhysicalLine} {ls : List PhysicalLine}
    (h : (join escape l ls).2.2 ≠ []) :
    ∃ used, ls = used ++ (join escape l ls).2.2 ∧ ∀ rest, join escape l (used ++ rest)
      = ((join escape l ls).1, (join escape l ls).2.1, rest) := by
  cases hc : l.isComment with
  | true =>
    rw [join_comment hc]
    exact ⟨[], rfl, join_comment hc⟩
  | false =>
    cases hm : l.beforeMarker? escape with
    | none =>
      rw [join_closed hc hm]
      exact ⟨[], rfl, join_closed hc hm⟩
    | some kept =>
      rw [join_marked hc hm] at h ⊢
      obtain ⟨used, hsplit, hrest⟩ := continued_resume h
      refine ⟨used, hsplit, fun rest => ?_⟩
      rw [join_marked hc hm, hrest]

/-! ## Many logical lines -/

variable {σ α : Type} {escape : σ → List Char} {step : σ → LogicalLine → α × σ}

/-- The lines `used`, read from logical line `index` and state `s` on, make the items and lead to
the state `t`, and the next line starts a logical line, whatever it is. -/
def Reaches (escape : σ → List Char) (step : σ → LogicalLine → α × σ) (index : Nat) (s : σ)
    (used : List PhysicalLine) (items : List α) (t : σ) : Prop :=
  ∀ rest, foldLines escape step index s (used ++ rest)
    = (items ++ (foldLines escape step (index + items.length) t rest).1,
      (foldLines escape step (index + items.length) t rest).2)

namespace Reaches

variable {index : Nat} {s t u : σ} {as bs : List PhysicalLine} {items items' : List α}

theorem nil : Reaches escape step index s [] [] s := fun _ => rfl

theorem append (h : Reaches escape step index s as items t)
    (h' : Reaches escape step (index + items.length) t bs items' u) :
    Reaches escape step index s (as ++ bs) (items ++ items') u := by
  intro rest
  rw [List.append_assoc, h, h', List.length_append, List.append_assoc, Nat.add_assoc]

/-- One logical line makes one item. -/
theorem single {l : PhysicalLine} {first : Piece} {more : List Piece}
    (h : ∀ rest, join (escape s) l (as ++ rest) = (first, more, rest)) :
    Reaches escape step index s (l :: as) [(step s (.ofPieces index first more)).1]
      (step s (.ofPieces index first more)).2 := by
  intro rest
  rw [List.cons_append, foldLines]
  simp only [h]
  rfl

/-- The items are what is made of the lines alone. -/
theorem foldLines_eq (h : Reaches escape step index s as items t) :
    foldLines escape step index s as = (items, t) := by
  have h := h []
  rw [List.append_nil] at h
  rw [h]
  simp [foldLines]

end Reaches

/-- **Every item is made where a logical line starts.** -/
theorem exists_reaches_of_mem {index : Nat} {s : σ} {ls : List PhysicalLine} {a : α}
    (ha : a ∈ (foldLines escape step index s ls).1) :
    ∃ used l rest items t, ls = used ++ l :: rest ∧ Reaches escape step index s used items t
      ∧ a = (step t (.ofPieces (index + items.length) (join (escape t) l rest).1
        (join (escape t) l rest).2.1)).1 := by
  fun_induction foldLines escape step index s ls with
  | case1 => simp at ha
  | case2 index s l rest joined stepped more ih =>
    rcases List.mem_cons.mp ha with rfl | ha
    · exact ⟨[], l, rest, [], s, rfl, .nil, rfl⟩
    · obtain ⟨used, l', rest', items, t, hsplit, hreach, hitem⟩ := ih ha
      -- lines are left over, so the first logical line ends whatever follows
      have hne : (join (escape s) l rest).2.2 ≠ [] := by
        show joined.2.2 ≠ []
        rw [hsplit]
        simp
      obtain ⟨taken, htaken, hjoin⟩ := join_resume hne
      have hfirst : Reaches escape step index s (l :: taken) [stepped.1] stepped.2 :=
        Reaches.single hjoin
      refine ⟨l :: taken ++ used, l', rest', [stepped.1] ++ items, t, ?_, hfirst.append hreach, ?_⟩
      · have hsplit : (join (escape s) l rest).2.2 = used ++ l' :: rest' := hsplit
        rw [htaken, hsplit, List.append_assoc, List.cons_append]
      · rw [hitem, List.length_append, List.length_singleton, Nat.add_assoc]

end Dockerfile
