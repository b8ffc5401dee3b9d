import Dockerfile.Proofs.Document.Locate

/-!
# Places and offsets are maps of each other

`LogicalLine.positionOf` goes from an offset of a logical line to a place, and `Document.locate`
from a place to a logical line and an offset. Over the whole document the two belong together:

* every offset has a place, and that place is located on it;
* a place that is located is where its offset is found again, unless it is the end of a fragment
  that another one follows, where one offset has two places;
* a place is not located only where no logical text is.
-/

namespace Dockerfile.Document

/-- A place on a fragment is where its offset is found, the end of a fragment that another one
follows apart. -/
theorem positionOf_of_shows {s : List Char} {e : Entry} (he : e ∈ (ofText s).entries)
    {f : Fragment} (hf : f ∈ e.line.fragments) {column : Nat}
    (hc : column < f.endColumn ∨ column = f.endColumn ∧ e.line.fragments.getLast? = some f) :
    e.line.positionOf (f.logicalStart + column : Nat) = some (f.line, column) := by
  obtain ⟨bs, -, hmap⟩ := exists_blocks s
  obtain ⟨A, b, B, -, hline⟩ := exists_split hmap he
  rw [hline] at hf hc ⊢
  rcases hc with hc | ⟨hc, hlast⟩
  · obtain ⟨front, back, hsplit⟩ := List.append_of_mem hf
    exact LogicalLine.positionOf_add hsplit (Or.inl hc)
  · obtain ⟨front, hsplit⟩ := List.getLast?_eq_some_iff.mp hlast
    exact LogicalLine.positionOf_add hsplit (Or.inr ⟨hc, rfl⟩)

/-- On a fragment, the character of the text is the character of the logical text. -/
theorem getElem?_text_of_shows {s : List Char} {e : Entry} (he : e ∈ (ofText s).entries)
    {f : Fragment} (hf : f ∈ e.line.fragments) {l : PhysicalLine}
    (hl : (ofText s).lines[f.line]? = some l) {column : Nat} (hc : column < f.endColumn) :
    ∃ c, s[l.start + column]? = some c ∧ e.line.text[f.logicalStart + column]? = some c := by
  obtain ⟨bs, hlines, hmap⟩ := exists_blocks s
  obtain ⟨A, b, B, rfl, hline⟩ := exists_split hmap he
  rw [hline] at hf ⊢
  obtain ⟨q, hq, hqmem, hql, -, hqend, htext⟩ := Block.exists_of_mem_fragments hf
  obtain rfl : q.line = l := (numbered_lines s).eq_of_index (mem_lines hlines hqmem)
    (List.mem_of_getElem? hl) (by rw [← hql, numbered_lines s _ l hl, Nat.zero_add])
  have hlen : column < q.line.content.length := by
    have := (b.joins.kept_isPrefix hq).length_le
    omega
  refine ⟨q.line.content[column], ?_, ?_⟩
  · rw [PhysicalLine.getElem?_text (List.mem_of_getElem? hl) hlen, List.getElem?_eq_getElem]
  · rw [htext column hc, List.getElem?_eq_getElem]

section Characters

variable {s : List Char} {e e' : Entry} {f f' : Fragment} {column column' : Nat}

/-- A fragment is on its line from the start of the line on. -/
theorem exists_line_of_mem (he : e ∈ (ofText s).entries) (hf : f ∈ e.line.fragments) :
    ∃ l ∈ (ofText s).lines, f.line = l.index ∧ f.offset = l.start
      ∧ f.endColumn ≤ l.content.length := by
  obtain ⟨bs, hlines, hmap⟩ := exists_blocks s
  obtain ⟨A, b, B, rfl, hline⟩ := exists_split hmap he
  rw [hline] at hf
  obtain ⟨q, hq, hmem, hindex, hoffset, hend, -⟩ := Block.exists_of_mem_fragments hf
  exact ⟨q.line, mem_lines hlines hmem, hindex, hoffset,
    hend ▸ (b.joins.kept_isPrefix hq).length_le⟩

/-- On a fragment, the character of the text is the character of the logical text. -/
theorem getElem?_text_of_mem (he : e ∈ (ofText s).entries) (hf : f ∈ e.line.fragments)
    (hc : column < f.endColumn) :
    s[f.offset + column]? = e.line.text[f.logicalStart + column]? := by
  obtain ⟨l, hl, hline, hoffset, -⟩ := exists_line_of_mem he hf
  have hget : (ofText s).lines[f.line]? = some l := by
    rw [hline]
    exact ((numbered_lines s).getElem?_of_mem hl).2
  obtain ⟨c, htext, hlogical⟩ := getElem?_text_of_shows he hf hget hc
  rw [hoffset, htext, hlogical]

/-- A character of the text stands at one offset of one entry at most. -/
theorem eq_of_offset_add_eq (he : e ∈ (ofText s).entries) (he' : e' ∈ (ofText s).entries)
    (hf : f ∈ e.line.fragments) (hf' : f' ∈ e'.line.fragments) (hc : column < f.endColumn)
    (hc' : column' < f'.endColumn) (h : f.offset + column = f'.offset + column') :
    e = e' ∧ f.logicalStart + column = f'.logicalStart + column' := by
  obtain ⟨l, hl, hline, hoffset, hend⟩ := exists_line_of_mem he hf
  obtain ⟨l', hl', hline', hoffset', hend'⟩ := exists_line_of_mem he' hf'
  obtain rfl := PhysicalLine.eq_of_start_add_eq hl hl' (Nat.lt_of_lt_of_le hc hend)
    (Nat.lt_of_lt_of_le hc' hend') (by rw [← hoffset, ← hoffset', h])
  obtain ⟨rfl, rfl⟩ := line_owner he he' hf hf' (hline.trans hline'.symm)
  exact ⟨rfl, by omega⟩

/-- Every offset inside the logical text is on a fragment. -/
theorem exists_fragment_of_lt (he : e ∈ (ofText s).entries) {offset : Nat}
    (h : offset < e.line.text.length) : ∃ f ∈ e.line.fragments,
      ∃ column < f.endColumn, offset = f.logicalStart + column := by
  obtain ⟨bs, -, hmap⟩ := exists_blocks s
  obtain ⟨A, b, B, -, hline⟩ := exists_split hmap he
  rw [hline, Block.logical, LogicalLine.text_ofPieces] at h
  obtain ⟨f, hf, column, hcolumn, heq⟩ := LogicalLine.exists_fragmentsOf_of_lt 0 h
  refine ⟨f, ?_, column, hcolumn, by omega⟩
  rw [hline, Block.logical, LogicalLine.fragments_ofPieces]
  exact hf

end Characters

/-- A place is not located exactly where no fragment shows it. -/
theorem locate_eq_none_iff {s : List Char} {p : Position} :
    (ofText s).locate p = none
      ↔ ∀ e ∈ (ofText s).entries, ∀ f ∈ e.line.fragments, ∀ offset, ¬f.Shows p offset := by
  rw [Option.eq_none_iff_forall_ne_some]
  constructor
  · intro h e he f hf offset hshows
    exact h (e, offset) (locate_eq_some_iff.mpr ⟨he, f, hf, hshows⟩)
  · rintro h ⟨e, offset⟩ hloc
    obtain ⟨he, f, hf, hshows⟩ := locate_eq_some_iff.mp hloc
    exact h e he f hf offset hshows

/-- What `locate` finds lies on a physical line whose number in the line map is the entry's. -/
theorem lines_of_locate {s : List Char} {p : Position} {e : Entry} {offset : Nat}
    (h : (ofText s).locate p = some (e, offset)) :
    ∃ l, (ofText s).lines[p.line.toNat]? = some l
      ∧ (ofText s).lineMap[p.line.toNat]? = some e.line.index := by
  obtain ⟨-, -, l, number, hl, -, hnumber, he, -⟩ := locate_eq_some.mp h
  exact ⟨l, hl, by rw [hnumber, index_of_getElem? he]⟩

/-- The places where nothing is located: outside the document, on a comment line dropped inside a
continuation, and behind the end of a fragment. -/
theorem locate_eq_none_iff_outside {s : List Char} {p : Position} :
    (ofText s).locate p = none ↔
      p.line < 0 ∨ p.character < 0 ∨ ((ofText s).lines.length : Int) ≤ p.line
        ∨ (ofText s).Dropped p.line.toNat
        ∨ ∃ e ∈ (ofText s).entries, ∃ f ∈ e.line.fragments,
            (f.line : Int) = p.line ∧ (f.endColumn : Int) < p.character := by
  rw [locate_eq_none_iff]
  constructor
  · intro h
    by_cases hl : p.line < 0
    · exact Or.inl hl
    by_cases hc : p.character < 0
    · exact Or.inr (Or.inl hc)
    by_cases hlen : ((ofText s).lines.length : Int) ≤ p.line
    · exact Or.inr (Or.inr (Or.inl hlen))
    rcases owned_or_dropped (s := s) (n := p.line.toNat) (by omega) with ⟨e, he, f, hf, hline⟩ | hd
    · refine Or.inr (Or.inr (Or.inr (Or.inr ⟨e, he, f, hf, by omega, ?_⟩)))
      have hnot := h e he f hf (f.logicalStart + p.character.toNat)
      by_cases hle : p.character.toNat ≤ f.endColumn
      · refine absurd ⟨p.character.toNat, ?_, hle, rfl⟩ hnot
        rw [hline, Int.toNat_of_nonneg (by omega), Int.toNat_of_nonneg (by omega)]
      · omega
    · exact Or.inr (Or.inr (Or.inr (Or.inl hd)))
  · rintro h e he f hf offset ⟨column, rfl, hle, rfl⟩
    rcases h with hl | hc | hlen | hd | ⟨e', he', f', hf', hline, hend⟩
    · exact absurd hl (Int.not_lt.mpr (Int.natCast_nonneg f.line))
    · exact absurd hc (Int.not_lt.mpr (Int.natCast_nonneg column))
    · have hloc := locate_eq_some_iff.mpr ⟨he, f, hf, column, rfl, hle, rfl⟩
      obtain ⟨l, hget, -⟩ := lines_of_locate hloc
      obtain ⟨hlt, -⟩ := List.getElem?_eq_some_iff.mp hget
      simp only [Int.toNat_natCast] at hlt hlen
      omega
    · exact hd.line_ne he hf rfl
    · obtain ⟨rfl, rfl⟩ := line_owner he he' hf hf' (by simp only at hline; omega)
      simp only at hend
      omega

/--
**Places and offsets are maps of each other over the whole document.**

* Every offset of a logical text has a place, and that place is located on it.
* A located place is on a fragment that owns its line alone. In front of the end of the fragment the
  text there is the logical text, and the offset leads back to the place. At its end that holds only
  if it is the last fragment of its entry.
* Nothing is located outside the document, on comment lines dropped inside a continuation, and
  behind the end of a fragment, and nowhere else.
-/
theorem locate_positionOf_two_way (s : List Char) :
    (∀ e ∈ (ofText s).entries, ∀ offset ≤ e.line.text.length, ∃ line column : Nat,
      e.line.positionOf offset = some (line, column)
        ∧ (ofText s).locate ⟨line, column⟩ = some (e, offset)) ∧
    (∀ p e offset, (ofText s).locate p = some (e, offset) →
      ∃ (line column : Nat) (l : PhysicalLine) (f : Fragment),
        p = ⟨line, column⟩ ∧ (ofText s).lines[line]? = some l
        ∧ (ofText s).lineMap[line]? = some e.line.index ∧ e ∈ (ofText s).entries
        ∧ f ∈ e.line.fragments ∧ f.line = line ∧ column ≤ f.endColumn
        ∧ (∀ e' ∈ (ofText s).entries, ∀ f' ∈ e'.line.fragments, f'.line = line → e' = e ∧ f' = f)
        ∧ (column < f.endColumn →
          ∃ c, s[l.start + column]? = some c ∧ e.line.text[offset]? = some c)
        ∧ (column < f.endColumn ∨ e.line.fragments.getLast? = some f →
          e.line.positionOf offset = some (line, column))) ∧
    (∀ p, (ofText s).locate p = none ↔
      p.line < 0 ∨ p.character < 0 ∨ ((ofText s).lines.length : Int) ≤ p.line
        ∨ (ofText s).Dropped p.line.toNat
        ∨ ∃ e ∈ (ofText s).entries, ∃ f ∈ e.line.fragments,
            (f.line : Int) = p.line ∧ (f.endColumn : Int) < p.character) := by
  refine ⟨?_, ?_, fun p => locate_eq_none_iff_outside⟩
  · intro e he offset hle
    obtain ⟨bs, -, hmap⟩ := exists_blocks s
    obtain ⟨A, b, B, -, hline⟩ := exists_split hmap he
    rw [hline] at hle
    obtain ⟨f, hf, c, hc, rfl, hpos⟩ := LogicalLine.exists_positionOf hle
    refine ⟨f.line, c, by rw [hline]; exact hpos, ?_⟩
    exact locate_eq_some_iff.mpr ⟨he, f, hline ▸ hf, c, rfl, hc, rfl⟩
  · intro p e offset h
    obtain ⟨he, f, hf, column, rfl, hle, rfl⟩ := locate_eq_some_iff.mp h
    obtain ⟨l, hl, hnumber⟩ := lines_of_locate h
    refine ⟨f.line, column, l, f, rfl, hl, hnumber, he, hf, rfl, hle, ?_, ?_, ?_⟩
    · intro e' he' f' hf' hline
      exact line_owner he' he hf' hf hline
    · exact getElem?_text_of_shows he hf hl
    · intro hc
      refine positionOf_of_shows he hf ?_
      rcases hc with hc | hlast
      · exact Or.inl hc
      · by_cases hlt : column < f.endColumn
        · exact Or.inl hlt
        · exact Or.inr ⟨by omega, hlast⟩

/-- `fr\`, a comment line, `oM a`: offset 3 of the one logical line is the second character of the
third line, and nothing is located on the comment line. -/
theorem locate_positionOf_over_comment :
    let d := ofText "fr\\\n#c\noM a".toList
    ∃ e ∈ d.entries, 3 ≤ e.line.text.length
      ∧ d.locate ⟨2, 1⟩ = some (e, 3)
      ∧ e.line.positionOf (3 : Nat) = some (2, 1)
      ∧ (∀ e' ∈ d.entries, ∀ f ∈ e'.line.fragments, f.line = 2 → e' = e)
      ∧ d.locate ⟨1, 0⟩ = none := by
  intro d
  have hone : ∃ e ∈ d.entries, 3 ≤ e.line.text.length
      ∧ e.line.positionOf (3 : Nat) = some (2, 1) ∧ e.line.firstLine < 1
      ∧ ∀ e' ∈ d.entries, ¬e.line.firstLine < e'.line.firstLine := by
    decide +kernel
  obtain ⟨e, he, hle, hpos, hfirst, hnext⟩ := hone
  obtain ⟨hforth, hback, hnone⟩ := locate_positionOf_two_way "fr\\\n#c\noM a".toList
  obtain ⟨line, column, hpos', hloc⟩ := hforth e he 3 hle
  rw [hpos] at hpos'
  obtain ⟨rfl, rfl⟩ := Prod.mk.inj (Option.some.inj hpos')
  obtain ⟨line, column, l, f, hp, -, -, -, -, -, -, howner, -⟩ := hback _ e 3 hloc
  have hline : line = 2 := by
    have := congrArg Position.line hp
    simp only at this
    omega
  have hdropped : d.Dropped 1 :=
    ⟨by decide +kernel, e, he, hfirst, fun e' he' hlt => absurd hlt (hnext e' he')⟩
  exact ⟨e, he, hle, hloc, hpos,
    fun e' he' f' hf' h2 => (howner e' he' f' hf' (by rw [h2, hline])).1,
    (hnone ⟨1, 0⟩).mpr (Or.inr (Or.inr (Or.inr (Or.inl hdropped))))⟩

end Dockerfile.Document
