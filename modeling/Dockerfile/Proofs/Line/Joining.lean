import Dockerfile.Line.Continuation

/-!
# What a logical line takes from the physical lines

`continued` and `join` are functions that hand on the lines they leave over. Here the other side is
written down as relations: the lines that are taken, and the piece, if any, that each of them gives.

* `Continues` — the lines taken after a line that is continued
* `Joins` — the lines taken by a whole logical line
* `join_joins` — `join` splits its lines into some that are so related and the rest

A line taken gives its content in front of the marker. Only comment lines give nothing, and never
the first line.
-/

namespace Dockerfile

variable {escape : List Char}

/-! ## One line -/

section OneLine

variable {l : PhysicalLine} {kept : List Char}

theorem continued_comment (hc : l.isComment = true) (ls : List PhysicalLine) :
    continued escape (l :: ls) = continued escape ls := by
  rw [continued, if_pos hc]

theorem continued_closed (hc : l.isComment = false) (hm : l.beforeMarker? escape = none)
    (ls : List PhysicalLine) : continued escape (l :: ls) = ([l.whole], ls) := by
  rw [continued, if_neg (Bool.not_eq_true _ ▸ hc), hm]

theorem continued_marked (hc : l.isComment = false) (hm : l.beforeMarker? escape = some kept)
    (ls : List PhysicalLine) : continued escape (l :: ls)
      = (⟨l, kept⟩ :: (continued escape ls).1, (continued escape ls).2) := by
  rw [continued, if_neg (Bool.not_eq_true _ ▸ hc), hm]

theorem join_comment (hc : l.isComment = true) (ls : List PhysicalLine) :
    join escape l ls = (l.whole, [], ls) := by
  rw [join, if_pos hc]

theorem join_closed (hc : l.isComment = false) (hm : l.beforeMarker? escape = none)
    (ls : List PhysicalLine) : join escape l ls = (l.whole, [], ls) := by
  rw [join, if_neg (Bool.not_eq_true _ ▸ hc), hm]

theorem join_marked (hc : l.isComment = false) (hm : l.beforeMarker? escape = some kept)
    (ls : List PhysicalLine) : join escape l ls = (⟨l, kept⟩, continued escape ls) := by
  rw [join, if_neg (Bool.not_eq_true _ ▸ hc), hm]

/-- The first piece of a logical line is from its first line. -/
theorem join_fst_line (escape : List Char) (l : PhysicalLine) (ls : List PhysicalLine) :
    (join escape l ls).1.line = l := by
  unfold join
  split
  · rfl
  · split <;> rfl

/-- A line that is no comment is joined with the lines that would continue it. -/
theorem join_of_continued {ls rest : List PhysicalLine} {first : Piece} {more : List Piece}
    (hc : l.isComment = false) (h : continued escape (l :: ls) = (first :: more, rest)) :
    join escape l ls = (first, more, rest) := by
  cases hm : l.beforeMarker? escape with
  | none =>
    rw [continued_closed hc hm] at h
    obtain ⟨hp, rfl⟩ := Prod.mk.inj h
    obtain ⟨rfl, rfl⟩ := List.cons.inj hp
    exact join_closed hc hm ls
  | some kept =>
    rw [continued_marked hc hm] at h
    obtain ⟨hp, rfl⟩ := Prod.mk.inj h
    obtain ⟨rfl, rfl⟩ := List.cons.inj hp
    exact join_marked hc hm ls

end OneLine

/-! ## Relations -/

/-- The lines that an open continuation takes, and their pieces. -/
inductive Continues (escape : List Char) : List PhysicalLine → List Piece → Prop
  /-- The text ends. -/
  | textEnds : Continues escape [] []
  /-- A comment line gives no piece. -/
  | dropped {l used pieces} (hcomment : l.isComment = true) (hmore : Continues escape used pieces) :
    Continues escape (l :: used) pieces
  /-- A line without a marker is the last one. -/
  | closed {l} (hcomment : l.isComment = false) (hmarker : l.beforeMarker? escape = none) :
    Continues escape [l] [l.whole]
  /-- A line with a marker is continued in turn. -/
  | goesOn {l kept used pieces} (hcomment : l.isComment = false)
    (hmarker : l.beforeMarker? escape = some kept) (hmore : Continues escape used pieces) :
    Continues escape (l :: used) (⟨l, kept⟩ :: pieces)

/-- The lines that a logical line takes, its first piece and the further ones. -/
inductive Joins (escape : List Char) : List PhysicalLine → Piece → List Piece → Prop
  | comment {l} (hcomment : l.isComment = true) : Joins escape [l] l.whole []
  | closed {l} (hcomment : l.isComment = false) (hmarker : l.beforeMarker? escape = none) :
    Joins escape [l] l.whole []
  | goesOn {l kept used pieces} (hcomment : l.isComment = false)
    (hmarker : l.beforeMarker? escape = some kept) (hmore : Continues escape used pieces) :
    Joins escape (l :: used) ⟨l, kept⟩ pieces

/-! ## The functions meet the relations -/

theorem continued_continues (escape : List Char) (ls : List PhysicalLine) :
    ∃ used, ls = used ++ (continued escape ls).2
      ∧ Continues escape used (continued escape ls).1 := by
  induction ls with
  | nil => exact ⟨[], rfl, .textEnds⟩
  | cons l rest ih =>
    obtain ⟨used, hsplit, hcont⟩ := ih
    cases hc : l.isComment with
    | true =>
      rw [continued_comment hc]
      exact ⟨l :: used, congrArg (l :: ·) hsplit, .dropped hc hcont⟩
    | false =>
      cases hm : l.beforeMarker? escape with
      | none =>
        rw [continued_closed hc hm]
        exact ⟨[l], rfl, .closed hc hm⟩
      | some kept =>
        rw [continued_marked hc hm]
        exact ⟨l :: used, congrArg (l :: ·) hsplit, .goesOn hc hm hcont⟩

theorem join_joins (escape : List Char) (l : PhysicalLine) (rest : List PhysicalLine) :
    ∃ used, l :: rest = used ++ (join escape l rest).2.2
      ∧ Joins escape used (join escape l rest).1 (join escape l rest).2.1 := by
  cases hc : l.isComment with
  | true =>
    rw [join_comment hc]
    exact ⟨[l], rfl, .comment hc⟩
  | false =>
    cases hm : l.beforeMarker? escape with
    | none =>
      rw [join_closed hc hm]
      exact ⟨[l], rfl, .closed hc hm⟩
    | some kept =>
      rw [join_marked hc hm]
      obtain ⟨used, hsplit, hcont⟩ := continued_continues escape rest
      exact ⟨l :: used, congrArg (l :: ·) hsplit, .goesOn hc hm hcont⟩

/-! ## Markers -/

theorem isMarker_iff {s : List Char} :
    isMarker escape s = true ↔ ∃ blanks, isAllBlank blanks = true ∧ s = escape ++ blanks := by
  unfold isMarker
  rw [Bool.and_eq_true, List.isPrefixOf_iff_prefix]
  constructor
  · rintro ⟨⟨blanks, rfl⟩, hb⟩
    exact ⟨blanks, by simpa using hb, rfl⟩
  · rintro ⟨blanks, hb, rfl⟩
    exact ⟨List.prefix_append .., by simpa using hb⟩

/-- **What is cut off is the escape text and blanks.** -/
theorem beforeMarker?_eq_some {s kept : List Char} (h : beforeMarker? escape s = some kept) :
    ∃ blanks, isAllBlank blanks = true ∧ s = kept ++ (escape ++ blanks) := by
  induction s generalizing kept with
  | nil =>
    rw [beforeMarker?] at h
    split at h
    next hm =>
      obtain rfl := Option.some.inj h
      exact isMarker_iff.mp hm
    next => simp at h
  | cons c s ih =>
    rw [beforeMarker?] at h
    split at h
    next hm =>
      obtain rfl := Option.some.inj h
      exact isMarker_iff.mp hm
    next =>
      obtain ⟨kept', hk, rfl⟩ := Option.map_eq_some_iff.mp h
      obtain ⟨blanks, hb, rfl⟩ := ih hk
      exact ⟨blanks, hb, rfl⟩

theorem PhysicalLine.beforeMarker?_eq_some {l : PhysicalLine} {kept : List Char}
    (h : l.beforeMarker? escape = some kept) : l.ending ≠ .none ∧
      ∃ blanks, isAllBlank blanks = true ∧ l.content = kept ++ (escape ++ blanks) := by
  unfold PhysicalLine.beforeMarker? at h
  split at h
  next => simp at h
  next hne => exact ⟨hne, Dockerfile.beforeMarker?_eq_some h⟩

theorem PhysicalLine.beforeMarker?_eq_none_iff {l : PhysicalLine} :
    l.beforeMarker? escape = none
      ↔ l.ending = .none ∨ Dockerfile.beforeMarker? escape l.content = none := by
  unfold PhysicalLine.beforeMarker?
  split
  next h => exact ⟨fun _ => Or.inl h, fun _ => rfl⟩
  next h => exact ⟨Or.inr, fun hm => hm.resolve_left h⟩

/-! ## Consequences of the relations -/

theorem Continues.sublist {used : List PhysicalLine} {pieces : List Piece}
    (h : Continues escape used pieces) : (pieces.map Piece.line).Sublist used := by
  induction h with
  | textEnds => exact List.Sublist.slnil
  | dropped _ _ ih => exact ih.cons _
  | closed => exact List.Sublist.refl _
  | goesOn _ _ _ ih => exact ih.cons_cons _

/-- The pieces of a continuation are no comment lines. -/
theorem Continues.isComment_eq_false {used : List PhysicalLine} {pieces : List Piece}
    (h : Continues escape used pieces) {p : Piece} (hp : p ∈ pieces) :
    p.line.isComment = false := by
  induction h with
  | textEnds => simp at hp
  | dropped _ _ ih => exact ih hp
  | closed hc _ => rw [List.mem_singleton.mp hp]; exact hc
  | goesOn hc _ _ ih =>
    rcases List.mem_cons.mp hp with rfl | hp
    · exact hc
    · exact ih hp

/-- A piece of a continuation is a whole line, or what stands in front of the marker of one. -/
theorem Continues.whole_or_marked {used : List PhysicalLine} {pieces : List Piece}
    (h : Continues escape used pieces) {p : Piece} (hp : p ∈ pieces) :
    p.kept = p.line.content ∨ p.line.beforeMarker? escape = some p.kept := by
  induction h with
  | textEnds => simp at hp
  | dropped _ _ ih => exact ih hp
  | closed => rw [List.mem_singleton.mp hp]; exact Or.inl rfl
  | goesOn _ hm _ ih =>
    rcases List.mem_cons.mp hp with rfl | hp
    · exact Or.inr hm
    · exact ih hp

/-- A comment line stands behind a line that has given the piece in front of a marker, and there are
only comment lines in between. -/
def FollowsMarker (escape : List Char) (used : List PhysicalLine) (pieces : List Piece)
    (l : PhysicalLine) : Prop :=
  l.isComment = true ∧ ∃ front p mid back, used = front ++ p.line :: (mid ++ l :: back)
    ∧ p ∈ pieces ∧ p.line.isComment = false ∧ p.line.beforeMarker? escape = some p.kept
    ∧ ∀ m ∈ mid, m.isComment = true

/-- A line that gives no piece is a comment line, and it follows a marker unless only comment lines
are in front of it. -/
theorem Continues.mem_or_follows {used : List PhysicalLine} {pieces : List Piece}
    (h : Continues escape used pieces) {l : PhysicalLine} (hl : l ∈ used) :
    l ∈ pieces.map Piece.line ∨ FollowsMarker escape used pieces l
      ∨ l.isComment = true
        ∧ ∃ mid back, used = mid ++ l :: back ∧ ∀ m ∈ mid, m.isComment = true := by
  induction h with
  | textEnds => simp at hl
  | @dropped l' used pieces hc _ ih =>
    rcases List.mem_cons.mp hl with rfl | hl
    · exact Or.inr (Or.inr ⟨hc, [], used, rfl, by simp⟩)
    rcases ih hl with hmem | ⟨hlc, front, p, mid, back, rfl, hp⟩ | ⟨hlc, mid, back, rfl, hmid⟩
    · exact Or.inl hmem
    · exact Or.inr (Or.inl ⟨hlc, l' :: front, p, mid, back, rfl, hp⟩)
    · exact Or.inr (Or.inr ⟨hlc, l' :: mid, back, rfl, List.forall_mem_cons.mpr ⟨hc, hmid⟩⟩)
  | closed => exact Or.inl hl
  | @goesOn l' kept used pieces hc hm _ ih =>
    rcases List.mem_cons.mp hl with rfl | hl
    · exact Or.inl (by simp)
    rcases ih hl with hmem | ⟨hlc, front, p, mid, back, rfl, hp, hrest⟩
      | ⟨hlc, mid, back, rfl, hmid⟩
    · exact Or.inl (List.mem_cons_of_mem _ hmem)
    · exact Or.inr
        (Or.inl ⟨hlc, l' :: front, p, mid, back, rfl, List.mem_cons_of_mem _ hp, hrest⟩)
    · -- the marker that the comment lines follow is on the line right in front of them
      exact Or.inr (Or.inl ⟨hlc, [], ⟨l', kept⟩, mid, back, rfl, by simp, hc, hm, hmid⟩)

namespace Joins

variable {used : List PhysicalLine} {first : Piece} {more : List Piece}

/-- The first line taken gives the first piece. -/
theorem exists_cons (h : Joins escape used first more) : ∃ rest, used = first.line :: rest := by
  cases h with
  | comment | closed | goesOn => exact ⟨_, rfl⟩

theorem sublist (h : Joins escape used first more) :
    ((first :: more).map Piece.line).Sublist used := by
  cases h with
  | comment | closed => exact List.Sublist.refl _
  | goesOn _ _ hmore => exact hmore.sublist.cons_cons _

theorem isComment_eq_false (h : Joins escape used first more) {p : Piece} (hp : p ∈ more) :
    p.line.isComment = false := by
  cases h with
  | comment | closed => simp at hp
  | goesOn _ _ hmore => exact hmore.isComment_eq_false hp

/-- A piece is a whole line, or what stands in front of the marker of one. -/
theorem whole_or_marked (h : Joins escape used first more) {p : Piece} (hp : p ∈ first :: more) :
    p.kept = p.line.content ∨ p.line.beforeMarker? escape = some p.kept := by
  cases h with
  | comment | closed => rw [List.mem_singleton.mp hp]; exact Or.inl rfl
  | goesOn _ hm hmore =>
    rcases List.mem_cons.mp hp with rfl | hp
    · exact Or.inr hm
    · exact hmore.whole_or_marked hp

/-- A piece is the start of its line. -/
theorem kept_isPrefix (h : Joins escape used first more) {p : Piece} (hp : p ∈ first :: more) :
    p.kept <+: p.line.content := by
  rcases h.whole_or_marked hp with hw | hm
  · exact hw ▸ List.prefix_rfl
  · obtain ⟨-, blanks, -, hcontent⟩ := PhysicalLine.beforeMarker?_eq_some hm
    exact hcontent ▸ List.prefix_append ..

/-- **A line that gives no piece is a comment line that follows a marker.** -/
theorem mem_or_follows (h : Joins escape used first more) {l : PhysicalLine} (hl : l ∈ used) :
    l ∈ (first :: more).map Piece.line ∨ FollowsMarker escape used (first :: more) l := by
  cases h with
  | comment | closed => exact Or.inl hl
  | @goesOn l' kept used pieces hc hm hmore =>
    rcases List.mem_cons.mp hl with rfl | hl
    · exact Or.inl (by simp)
    rcases hmore.mem_or_follows hl with hmem | ⟨hlc, front, p, mid, back, rfl, hp, hrest⟩
      | ⟨hlc, mid, back, rfl, hmid⟩
    · exact Or.inl (List.mem_cons_of_mem _ hmem)
    · exact Or.inr ⟨hlc, l' :: front, p, mid, back, rfl, List.mem_cons_of_mem _ hp, hrest⟩
    · exact Or.inr ⟨hlc, [], ⟨l', kept⟩, mid, back, rfl, by simp, hc, hm, hmid⟩

end Joins

end Dockerfile
