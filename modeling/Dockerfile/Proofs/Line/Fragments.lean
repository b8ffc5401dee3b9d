import Mathlib.Algebra.GroupWithZero.Nat
import Dockerfile.Line.Continuation

/-!
# Fragments and places

The fragments of a logical line tile its text: each starts where the one before it ends. So an
offset of the text lies on a last fragment that starts at or before it, and `positionOf` finds it.

* `exists_positionOf` — every offset of the text has a place, and it is on a fragment
* `positionOf_add` — the place of an offset is where it was found, unless that is the end of a
  fragment that another one follows
-/

namespace Dockerfile

/-- The place is on the fragment, the end of the fragment included, and stands for the offset. -/
def Fragment.Shows (f : Fragment) (p : Position) (offset : Nat) : Prop :=
  ∃ column : Nat, p = ⟨f.line, column⟩ ∧ column ≤ f.endColumn ∧ offset = f.logicalStart + column

theorem Fragment.offsetAt_eq_some_iff {f : Fragment} (h0 : f.startColumn = 0) {column : Int}
    {offset : Nat} : f.offsetAt column = some offset
      ↔ ∃ c : Nat, column = c ∧ c ≤ f.endColumn ∧ offset = f.logicalStart + c := by
  unfold Fragment.offsetAt
  rw [h0]
  constructor
  · intro h
    split at h
    next hc =>
      refine ⟨column.toNat, by omega, by omega, ?_⟩
      simpa using h.symm
    next => simp at h
  · rintro ⟨c, rfl, hle, rfl⟩
    rw [if_pos (by omega)]
    simp

/-- The number of characters on the fragment. -/
def Fragment.length (f : Fragment) : Nat := f.endColumn - f.startColumn

/-- The characters of the whole text that the fragment covers. -/
def Fragment.textIn (s : List Char) (f : Fragment) : List Char := (s.drop f.offset).take f.length

namespace LogicalLine

/-! ## Fragments of pieces -/

theorem map_line_fragmentsOf (start : Nat) (ps : List Piece) :
    (fragmentsOf start ps).map Fragment.line = ps.map fun p => p.line.index := by
  induction ps generalizing start with
  | nil => rfl
  | cons p ps ih => simp only [fragmentsOf, List.map_cons, ih, fragmentOf]

/-- A fragment among those of pieces is that of one piece, behind the text of the pieces before. -/
theorem exists_of_fragmentsOf_eq {start : Nat} {ps : List Piece} {front back : List Fragment}
    {f : Fragment} (h : fragmentsOf start ps = front ++ f :: back) :
    ∃ A p B, ps = A ++ p :: B ∧ f = fragmentOf (start + (A.flatMap Piece.kept).length) p
      ∧ back = fragmentsOf (start + (A.flatMap Piece.kept).length + p.kept.length) B := by
  induction front generalizing start ps with
  | nil =>
    cases ps with
    | nil => simp [fragmentsOf] at h
    | cons p ps =>
      obtain ⟨hf, hb⟩ := List.cons.inj h
      exact ⟨[], p, ps, rfl, hf.symm, hb.symm⟩
  | cons g front ih =>
    cases ps with
    | nil => simp [fragmentsOf] at h
    | cons p ps =>
      obtain ⟨-, hrest⟩ := List.cons.inj h
      obtain ⟨A, q, B, rfl, hf, hb⟩ := ih hrest
      refine ⟨p :: A, q, B, rfl, ?_, ?_⟩
      · rw [hf, List.flatMap_cons, List.length_append, Nat.add_assoc]
      · rw [hb, List.flatMap_cons, List.length_append, Nat.add_assoc start]

theorem exists_of_mem_fragmentsOf {start : Nat} {ps : List Piece} {f : Fragment}
    (h : f ∈ fragmentsOf start ps) :
    ∃ A p B, ps = A ++ p :: B ∧ f = fragmentOf (start + (A.flatMap Piece.kept).length) p := by
  obtain ⟨front, back, he⟩ := List.append_of_mem h
  obtain ⟨A, p, B, hps, hf, -⟩ := exists_of_fragmentsOf_eq he
  exact ⟨A, p, B, hps, hf⟩

/-- Each piece has its fragment. -/
theorem exists_mem_fragmentsOf (start : Nat) {ps : List Piece} {p : Piece} (h : p ∈ ps) :
    ∃ f ∈ fragmentsOf start ps, f.line = p.line.index ∧ f.endColumn = p.kept.length := by
  induction ps generalizing start with
  | nil => simp at h
  | cons q ps ih =>
    rcases List.mem_cons.mp h with rfl | h
    · exact ⟨_, List.mem_cons_self .., rfl, rfl⟩
    · obtain ⟨f, hf, hline, hend⟩ := ih (start + q.kept.length) h
      exact ⟨f, List.mem_cons_of_mem _ hf, hline, hend⟩

/-- Every offset inside the text of pieces is on one of their fragments. -/
theorem exists_fragmentsOf_of_lt (start : Nat) {offset : Nat} {ps : List Piece}
    (h : offset < (ps.flatMap Piece.kept).length) : ∃ f ∈ fragmentsOf start ps,
      ∃ column < f.endColumn, start + offset = f.logicalStart + column := by
  induction ps generalizing start offset with
  | nil => exact absurd h (Nat.not_lt_zero _)
  | cons p ps ih =>
    by_cases hp : offset < p.kept.length
    · exact ⟨fragmentOf start p, List.mem_cons_self .., offset, hp, rfl⟩
    · rw [List.flatMap_cons, List.length_append] at h
      have hlt : offset - p.kept.length < (ps.flatMap Piece.kept).length := by omega
      obtain ⟨f, hf, column, hcolumn, heq⟩ := ih (start + p.kept.length) hlt
      exact ⟨f, List.mem_cons_of_mem _ hf, column, hcolumn, by omega⟩

/-- A fragment starts in the logical text where those in front of it end. -/
theorem logicalStart_of_fragmentsOf_eq {start : Nat} {ps : List Piece} {front back : List Fragment}
    {f : Fragment} (h : fragmentsOf start ps = front ++ f :: back) :
    f.logicalStart = start + (front.map Fragment.length).sum := by
  induction front generalizing start ps with
  | nil =>
    cases ps with
    | nil => simp [fragmentsOf] at h
    | cons p ps =>
      obtain ⟨rfl, -⟩ := List.cons.inj h
      rfl
  | cons g front ih =>
    cases ps with
    | nil => simp [fragmentsOf] at h
    | cons p ps =>
      obtain ⟨rfl, hrest⟩ := List.cons.inj h
      rw [ih hrest, List.map_cons, List.sum_cons, ← Nat.add_assoc]
      rfl

/-- The texts of the fragments, one behind the other, are what the pieces keep. -/
theorem flatMap_textIn_fragmentsOf {s : List Char} {ps : List Piece}
    (h : ∀ p ∈ ps, (s.drop p.line.start).take p.kept.length = p.kept) (start : Nat) :
    (fragmentsOf start ps).flatMap (Fragment.textIn s) = ps.flatMap Piece.kept := by
  induction ps generalizing start with
  | nil => rfl
  | cons p ps ih =>
    obtain ⟨hp, hps⟩ := List.forall_mem_cons.mp h
    rw [fragmentsOf, List.flatMap_cons, List.flatMap_cons, ih hps]
    exact congrArg (· ++ ps.flatMap Piece.kept) hp

/-! ## Lines made of pieces -/

section OfPieces

variable {index : Nat} {p : Piece} {more : List Piece}

theorem fragments_ofPieces (index : Nat) (p : Piece) (more : List Piece) :
    (ofPieces index p more).fragments = fragmentsOf 0 (p :: more) := by
  simp only [fragments, ofPieces, fragmentsOf, Nat.zero_add]

theorem text_ofPieces (index : Nat) (p : Piece) (more : List Piece) :
    (ofPieces index p more).text = (p :: more).flatMap Piece.kept := rfl

theorem startColumn_of_mem {f : Fragment} (hf : f ∈ (ofPieces index p more).fragments) :
    f.startColumn = 0 := by
  rw [fragments_ofPieces] at hf
  obtain ⟨A, q, B, -, rfl⟩ := exists_of_mem_fragmentsOf hf
  rfl

/-- A fragment ends where the next one starts, or at the end of the text. -/
theorem fragment_end {front back : List Fragment} {f : Fragment}
    (h : (ofPieces index p more).fragments = front ++ f :: back) :
    (∀ g ∈ back, f.logicalStart + f.endColumn ≤ g.logicalStart)
      ∧ f.logicalStart + f.endColumn ≤ (ofPieces index p more).text.length
      ∧ (f.logicalStart + f.endColumn = (ofPieces index p more).text.length
        ∨ ∃ g ∈ back, g.logicalStart = f.logicalStart + f.endColumn) := by
  rw [fragments_ofPieces] at h
  obtain ⟨A, q, B, hps, rfl, rfl⟩ := exists_of_fragmentsOf_eq h
  rw [text_ofPieces, hps]
  refine ⟨?_, ?_, ?_⟩
  · intro g hg
    obtain ⟨A', r, B', -, rfl⟩ := exists_of_mem_fragmentsOf hg
    simp only [fragmentOf]
    omega
  · simp only [fragmentOf, List.flatMap_append, List.flatMap_cons, List.length_append]
    omega
  · cases B with
    | nil => exact Or.inl (by simp [fragmentOf])
    | cons r B => exact Or.inr ⟨_, List.mem_cons_self .., rfl⟩

/-- The text of a fragment is what its line keeps. -/
theorem getElem?_text_of_mem {f : Fragment} (hf : f ∈ (ofPieces index p more).fragments) :
    ∃ q ∈ p :: more, f.line = q.line.index ∧ f.offset = q.line.start
      ∧ f.endColumn = q.kept.length
      ∧ ∀ c < f.endColumn, (ofPieces index p more).text[f.logicalStart + c]? = q.kept[c]? := by
  rw [fragments_ofPieces] at hf
  obtain ⟨A, q, B, hps, rfl⟩ := exists_of_mem_fragmentsOf hf
  refine ⟨q, by simp [hps], rfl, rfl, rfl, fun c hc => ?_⟩
  rw [text_ofPieces, hps, List.flatMap_append, List.flatMap_cons]
  simp only [fragmentOf, Nat.zero_add] at hc ⊢
  rw [List.getElem?_append_right (by omega), Nat.add_sub_cancel_left, List.getElem?_append_left hc]

/-! ## From offsets to places -/

/-- The place is on the last fragment that starts at or before the offset. -/
theorem positionOf_eq {l : LogicalLine} {front back : List Fragment} {f : Fragment}
    (h : l.fragments = front ++ f :: back) {offset : Nat} (hle : offset ≤ l.text.length)
    (hf : f.logicalStart ≤ offset) (hback : ∀ g ∈ back, offset < g.logicalStart) :
    l.positionOf offset = some (f.placeOf offset) := by
  have hfind : l.fragments.reverse.find? (fun g => g.logicalStart ≤ (offset : Int).toNat)
      = some f := by
    rw [List.find?_eq_some_iff_append]
    refine ⟨by simpa using hf, back.reverse, front.reverse, by simp [h], ?_⟩
    intro g hg
    have := hback g (List.mem_reverse.mp hg)
    simp only [Int.toNat_natCast, Bool.not_eq_eq_eq_not, Bool.not_true, decide_eq_false_iff_not]
    omega
  unfold positionOf
  rw [if_pos (by omega), hfind]
  rfl

/-- **The place of an offset is where it was found**, unless that is the end of a fragment that
another one follows. -/
theorem positionOf_add {front back : List Fragment} {f : Fragment}
    (h : (ofPieces index p more).fragments = front ++ f :: back) {c : Nat}
    (hc : c < f.endColumn ∨ c = f.endColumn ∧ back = []) :
    (ofPieces index p more).positionOf (f.logicalStart + c : Nat) = some (f.line, c) := by
  obtain ⟨hnext, hlen, -⟩ := fragment_end h
  rw [positionOf_eq h (by omega) (by omega)]
  · have h0 : f.startColumn = 0 := startColumn_of_mem (by rw [h]; simp)
    rw [Fragment.placeOf, h0, Nat.add_sub_cancel_left, Nat.zero_add]
  · intro g hg
    rcases hc with hc | ⟨-, rfl⟩
    · have := hnext g hg
      omega
    · simp at hg

/-- **Every offset of the text has a place, and it is on a fragment.** -/
theorem exists_positionOf {offset : Nat} (hle : offset ≤ (ofPieces index p more).text.length) :
    ∃ f ∈ (ofPieces index p more).fragments, ∃ c ≤ f.endColumn, offset = f.logicalStart + c
      ∧ (ofPieces index p more).positionOf offset = some (f.line, c) := by
  -- the last fragment that starts at or before the offset; the first one starts at 0
  have hsome : ((ofPieces index p more).fragments.reverse.find?
      fun g => g.logicalStart ≤ offset).isSome := by
    rw [List.find?_isSome]
    exact ⟨fragmentOf 0 p, by simp [fragments, ofPieces], by simp [fragmentOf]⟩
  obtain ⟨f, hf⟩ := Option.isSome_iff_exists.mp hsome
  obtain ⟨hstart, back, front, he, hback⟩ := List.find?_eq_some_iff_append.mp hf
  have hsplit : (ofPieces index p more).fragments = front.reverse ++ f :: back.reverse := by
    simpa using congrArg List.reverse he
  have hstart : f.logicalStart ≤ offset := by simpa using hstart
  have hback : ∀ g ∈ back.reverse, offset < g.logicalStart := fun g hg => by
    simpa using hback g (List.mem_reverse.mp hg)
  obtain ⟨c, rfl⟩ := Nat.exists_eq_add_of_le hstart
  have hc : c ≤ f.endColumn := by
    rcases (fragment_end hsplit).2.2 with hend | ⟨g, hg, hend⟩
    · omega
    · have := hback g hg
      omega
  refine ⟨f, by rw [hsplit]; simp, c, hc, rfl, ?_⟩
  rw [positionOf_eq hsplit hle hstart hback]
  have h0 : f.startColumn = 0 := startColumn_of_mem (by rw [hsplit]; simp)
  rw [Fragment.placeOf, h0, Nat.add_sub_cancel_left, Nat.zero_add]

end OfPieces

/-! ## From places to offsets -/

theorem exists_of_offsetAt {l : LogicalLine} {p : Position} {offset : Nat}
    (h : l.offsetAt p = some offset) :
    ∃ f ∈ l.fragments, (f.line : Int) = p.line ∧ f.offsetAt p.character = some offset := by
  obtain ⟨f, hf, ho⟩ := Option.bind_eq_some_iff.mp h
  exact ⟨f, List.mem_of_find?_eq_some hf, by simpa using List.find?_some hf, ho⟩

/-- If the fragments are on different lines, the one on a line is found by the line. -/
theorem find?_line {l : LogicalLine} (hnodup : (l.fragments.map Fragment.line).Nodup)
    {f : Fragment} (hf : f ∈ l.fragments) {line : Int} (hline : (f.line : Int) = line) :
    l.fragments.find? (fun g => (g.line : Int) == line) = some f := by
  obtain ⟨front, back, he⟩ := List.append_of_mem hf
  rw [he, List.map_append, List.map_cons] at hnodup
  rw [List.find?_eq_some_iff_append]
  refine ⟨by simpa using hline, front, back, he, fun g hg => ?_⟩
  have hne : g.line ≠ f.line := fun heq => by
    have hdisj := (List.nodup_append.mp hnodup).2.2
    exact hdisj g.line (List.mem_map_of_mem hg) f.line (by simp) heq
  have : ¬(g.line : Int) = line := by omega
  simpa using this

theorem offsetAt_eq {l : LogicalLine} (hnodup : (l.fragments.map Fragment.line).Nodup)
    {f : Fragment} (hf : f ∈ l.fragments) {p : Position} (hp : (f.line : Int) = p.line) :
    l.offsetAt p = f.offsetAt p.character := by
  rw [offsetAt, find?_line hnodup hf hp]
  rfl

end LogicalLine

end Dockerfile
