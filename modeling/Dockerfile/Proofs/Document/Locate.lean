import Dockerfile.Proofs.Line.Blocks

/-!
# Places of a document

`Document.locate` goes from a place to an entry and an offset by way of the line map; `positionOf`
goes back. Both are described here by one relation, `Fragment.Shows`: the place is on a fragment,
its end included, and the offset is as far into the fragment.

* `locate_eq_some_iff` — a place is located on an entry iff a fragment of the entry shows it
* `line_owner` — a physical line belongs to the fragments of one entry at most
* `owned_or_dropped` — a physical line has a fragment unless it is a comment line dropped inside a
  continuation
-/

namespace Dockerfile

namespace Document

/-! ## The entries as blocks -/

/-- The entries of a document are those of a row of blocks over its lines. -/
theorem exists_blocks (s : List Char) :
    ∃ bs : List Block, (ofText s).lines = bs.flatMap Block.lines
      ∧ (ofText s).entries.map Entry.line = Block.logicals 0 bs :=
  foldLines_eq_logicals (fun _ _ => rfl) 0 Header.initial (PhysicalLine.ofText s)

theorem numbered_lines (s : List Char) : PhysicalLine.Numbered 0 (ofText s).lines :=
  PhysicalLine.numbered_ofText s

/-- The number of a logical line is its place among the entries. -/
theorem index_of_getElem? {s : List Char} {j : Nat} {e : Entry}
    (h : (ofText s).entries[j]? = some e) : e.line.index = j := by
  obtain ⟨bs, -, hmap⟩ := exists_blocks s
  have hline : (Block.logicals 0 bs)[j]? = some e.line := by
    rw [← hmap, List.getElem?_map, h]
    rfl
  rw [Block.getElem?_logicals] at hline
  obtain ⟨b, -, hb⟩ := Option.map_eq_some_iff.mp hline
  rw [← hb]
  exact Nat.zero_add j

theorem getElem?_entries {s : List Char} {e : Entry} (he : e ∈ (ofText s).entries) :
    (ofText s).entries[e.line.index]? = some e := by
  obtain ⟨j, hj⟩ := List.mem_iff_getElem?.mp he
  rw [index_of_getElem? hj, hj]

/-- An entry is told by the number of its logical line. -/
theorem entry_ext {s : List Char} {e e' : Entry} (he : e ∈ (ofText s).entries)
    (he' : e' ∈ (ofText s).entries) (h : e.line.index = e'.line.index) : e = e' := by
  have hget := getElem?_entries he
  rw [h, getElem?_entries he'] at hget
  exact (Option.some.inj hget).symm

/-- The block of an entry in the row. -/
theorem exists_split {s : List Char} {bs : List Block}
    (hmap : (ofText s).entries.map Entry.line = Block.logicals 0 bs) {e : Entry}
    (he : e ∈ (ofText s).entries) :
    ∃ A b B, bs = A ++ b :: B ∧ e.line = b.logical A.length := by
  have hmem : e.line ∈ Block.logicals 0 bs := hmap ▸ List.mem_map_of_mem he
  obtain ⟨A, b, B, hbs, hline⟩ := Block.exists_of_mem_logicals hmem
  exact ⟨A, b, B, hbs, by rw [hline, Nat.zero_add]⟩

theorem mem_lines {s : List Char} {A B : List Block} {b : Block}
    (hlines : (ofText s).lines = (A ++ b :: B).flatMap Block.lines) {l : PhysicalLine}
    (hl : l ∈ b.lines) : l ∈ (ofText s).lines := by
  rw [hlines]
  exact List.mem_flatMap.mpr ⟨b, by simp, hl⟩

/-- The line map gives a line of a block the number of the entry of the block. -/
theorem lineMap_of_block {s : List Char} {A B : List Block} {b : Block}
    (hlines : (ofText s).lines = (A ++ b :: B).flatMap Block.lines)
    (hmap : (ofText s).entries.map Entry.line = Block.logicals 0 (A ++ b :: B)) {i : Nat}
    (hi : i < b.lines.length) :
    (ofText s).lineMap[(A.flatMap Block.lines).length + i]? = some A.length := by
  have hn : PhysicalLine.Numbered 0 ((A ++ b :: B).flatMap Block.lines) :=
    hlines ▸ numbered_lines s
  have h := Block.getElem?_lineMap hn 0 hi
  rw [← hlines, ← hmap, Nat.zero_add, Nat.zero_add] at h
  exact h

/-! ## Locating -/

/-- What `locate` looks up on the way, one step after the other. -/
theorem locate_eq_some {d : Document} {p : Position} {e : Entry} {offset : Nat} :
    d.locate p = some (e, offset) ↔ 0 ≤ p.line ∧ 0 ≤ p.character ∧
      ∃ l number, d.lines[p.line.toNat]? = some l ∧ p.character ≤ l.content.length
        ∧ d.lineMap[p.line.toNat]? = some number ∧ d.entries[number]? = some e
        ∧ e.line.offsetAt p = some offset := by
  unfold locate
  constructor
  · intro h
    split at h
    next hp =>
      obtain ⟨l, hl, h⟩ := Option.bind_eq_some_iff.mp h
      split at h
      next hc =>
        obtain ⟨number, hnumber, h⟩ := Option.bind_eq_some_iff.mp h
        obtain ⟨e', he', h⟩ := Option.bind_eq_some_iff.mp h
        obtain ⟨o, ho, h⟩ := Option.bind_eq_some_iff.mp h
        obtain ⟨rfl, rfl⟩ := Prod.mk.inj (Option.some.inj h)
        exact ⟨hp.1, hp.2, l, number, hl, hc, hnumber, he', ho⟩
      next => simp at h
    next => simp at h
  · rintro ⟨hl0, hc0, l, number, hl, hc, hnumber, he, ho⟩
    simp [hl0, hc0, hl, hc, hnumber, he, ho]

/-- **A place is located on an entry iff a fragment of the entry shows it.** -/
theorem locate_eq_some_iff {s : List Char} {p : Position} {e : Entry} {offset : Nat} :
    (ofText s).locate p = some (e, offset)
      ↔ e ∈ (ofText s).entries ∧ ∃ f ∈ e.line.fragments, f.Shows p offset := by
  obtain ⟨bs, hlines, hmap⟩ := exists_blocks s
  have hn : PhysicalLine.Numbered 0 (bs.flatMap Block.lines) := hlines ▸ numbered_lines s
  rw [locate_eq_some]
  constructor
  · rintro ⟨-, -, l, number, -, -, -, he, ho⟩
    have he : e ∈ (ofText s).entries := List.mem_of_getElem? he
    obtain ⟨A, b, B, rfl, hline⟩ := exists_split hmap he
    obtain ⟨f, hf, hfl, hfo⟩ := LogicalLine.exists_of_offsetAt ho
    have h0 : f.startColumn = 0 := by
      rw [hline] at hf
      exact LogicalLine.startColumn_of_mem hf
    obtain ⟨c, hc, hle, rfl⟩ := (Fragment.offsetAt_eq_some_iff h0).mp hfo
    exact ⟨he, f, hf, c, by rw [hfl, ← hc], hle, rfl⟩
  · rintro ⟨he, f, hf, c, rfl, hle, rfl⟩
    obtain ⟨A, b, B, rfl, hline⟩ := exists_split hmap he
    have hf' : f ∈ (b.logical A.length).fragments := hline ▸ hf
    obtain ⟨q, hq, hqmem, hql, -, hqend, -⟩ := Block.exists_of_mem_fragments hf'
    obtain ⟨hlo, hhi⟩ := Block.line_of_mem_fragments hn hf'
    have hget : (ofText s).lines[f.line]? = some q.line := by
      rw [hql]
      exact ((numbered_lines s).getElem?_of_mem (mem_lines hlines hqmem)).2
    have hkept : q.kept.length ≤ q.line.content.length := (b.joins.kept_isPrefix hq).length_le
    have hnumber := lineMap_of_block hlines hmap
      (i := f.line - (A.flatMap Block.lines).length) (by omega)
    rw [show (A.flatMap Block.lines).length + (f.line - (A.flatMap Block.lines).length) = f.line
      by omega] at hnumber
    have hindex : e.line.index = A.length := by
      rw [hline]
      rfl
    refine ⟨Int.natCast_nonneg _, Int.natCast_nonneg _, q.line, A.length, hget,
      Int.ofNat_le.mpr (by omega), hnumber, hindex ▸ getElem?_entries he, ?_⟩
    have hnodup := Block.nodup_line_fragments (Block.numbered_of_append hn) A.length
    rw [← hline] at hnodup
    rw [LogicalLine.offsetAt_eq hnodup hf rfl, Fragment.offsetAt_eq_some_iff
      (LogicalLine.startColumn_of_mem hf')]
    exact ⟨c, rfl, hle, rfl⟩

/-! ## Whose line it is -/

/-- The first line of an entry is where its block starts. -/
theorem firstLine_of_block {s : List Char} {A B : List Block} {b : Block}
    (hlines : (ofText s).lines = (A ++ b :: B).flatMap Block.lines) (index : Nat) :
    (b.logical index).firstLine = (A.flatMap Block.lines).length := by
  have hn : PhysicalLine.Numbered 0 ((A ++ b :: B).flatMap Block.lines) :=
    hlines ▸ numbered_lines s
  rw [Block.firstLine_logical (Block.numbered_of_append hn), Nat.zero_add]

/-- **A physical line belongs to one fragment at most.** -/
theorem line_owner {s : List Char} {e e' : Entry} (he : e ∈ (ofText s).entries)
    (he' : e' ∈ (ofText s).entries) {f f' : Fragment} (hf : f ∈ e.line.fragments)
    (hf' : f' ∈ e'.line.fragments) (h : f.line = f'.line) : e = e' ∧ f = f' := by
  obtain ⟨bs, hlines, hmap⟩ := exists_blocks s
  have hn : PhysicalLine.Numbered 0 (bs.flatMap Block.lines) := hlines ▸ numbered_lines s
  obtain ⟨A, b, B, hbs, hline⟩ := exists_split hmap he
  obtain ⟨A', b', B', hbs', hline'⟩ := exists_split hmap he'
  obtain ⟨hlo, hhi⟩ := Block.line_of_mem_fragments (hbs ▸ hn) (hline ▸ hf)
  obtain ⟨hlo', hhi'⟩ := Block.line_of_mem_fragments (hbs' ▸ hn) (hline' ▸ hf')
  obtain ⟨rfl, rfl, rfl⟩ := Block.split_unique (hbs.symm.trans hbs') (n := f.line)
    (by omega) (by omega) (by omega) (by omega)
  have hee : e = e' := entry_ext he he' (by rw [hline, hline'])
  subst hee
  have hnodup := Block.nodup_line_fragments (Block.numbered_of_append (hbs ▸ hn)) A.length
  rw [← hline] at hnodup
  have hfind := LogicalLine.find?_line hnodup hf rfl
  rw [h, LogicalLine.find?_line hnodup hf' rfl] at hfind
  exact ⟨rfl, (Option.some.inj hfind).symm⟩

/-- A comment line dropped inside a continuation: it lies below the first line of a logical line
and above that of the next. -/
def Dropped (d : Document) (n : Nat) : Prop :=
  (∃ l, d.lines[n]? = some l ∧ l.isComment = true) ∧
    ∃ e ∈ d.entries, e.line.firstLine < n ∧
      ∀ e' ∈ d.entries, e.line.firstLine < e'.line.firstLine → n < e'.line.firstLine

/-- A line dropped has no fragment: below its first line, a logical line keeps no comment line. -/
theorem Dropped.line_ne {s : List Char} {n : Nat} (h : (ofText s).Dropped n) {e : Entry}
    (he : e ∈ (ofText s).entries) {f : Fragment} (hf : f ∈ e.line.fragments) : f.line ≠ n := by
  rintro rfl
  obtain ⟨bs, hlines, hmap⟩ := exists_blocks s
  have hn : PhysicalLine.Numbered 0 (bs.flatMap Block.lines) := hlines ▸ numbered_lines s
  obtain ⟨⟨l, hl, hcomment⟩, e₀, he₀, hlt, hnext⟩ := h
  obtain ⟨A, b, B, hbs, hline⟩ := exists_split hmap he
  obtain ⟨A₀, b₀, B₀, hbs₀, hline₀⟩ := exists_split hmap he₀
  have hfirst := firstLine_of_block (hbs ▸ hlines) A.length
  have hfirst₀ := firstLine_of_block (hbs₀ ▸ hlines) A₀.length
  rw [← hline] at hfirst
  rw [← hline₀] at hfirst₀
  obtain ⟨hlo, hhi⟩ := Block.line_of_mem_fragments (hbs ▸ hn) (hline ▸ hf)
  have hle : e.line.firstLine ≤ e₀.line.firstLine := by
    by_cases hc : e₀.line.firstLine < e.line.firstLine
    · have := hnext e he hc
      omega
    · omega
  obtain ⟨q, hq, hqmem, hql, -⟩ := Block.exists_of_mem_fragments (hline ▸ hf)
  have hq0 : q.line = l := (numbered_lines s).eq_of_index (mem_lines (hbs ▸ hlines) hqmem)
    (List.mem_of_getElem? hl) (by rw [← hql, numbered_lines s _ l hl, Nat.zero_add])
  rcases List.mem_cons.mp hq with rfl | hq
  · -- the first piece is on the first line, which is above the dropped one
    have : e.line.firstLine = b.first.line.index := by
      rw [hline]
      rfl
    omega
  · rw [← hq0, b.joins.isComment_eq_false hq] at hcomment
    cases hcomment

/-- **A physical line has a fragment, or it is a comment line dropped inside a continuation.** -/
theorem owned_or_dropped {s : List Char} {n : Nat} (h : n < (ofText s).lines.length) :
    (∃ e ∈ (ofText s).entries, ∃ f ∈ e.line.fragments, f.line = n) ∨ (ofText s).Dropped n := by
  obtain ⟨bs, hlines, hmap⟩ := exists_blocks s
  have hn : PhysicalLine.Numbered 0 (bs.flatMap Block.lines) := hlines ▸ numbered_lines s
  obtain ⟨A, b, B, hbs, hlo, hhi⟩ := Block.exists_split_of_lt (hlines ▸ h)
  obtain ⟨e, he, hline⟩ : ∃ e ∈ (ofText s).entries, e.line = b.logical A.length := by
    have hmem : b.logical A.length ∈ (ofText s).entries.map Entry.line := by
      rw [hmap, hbs, Block.logicals_append]
      simp [Block.logicals]
    exact List.mem_map.mp hmem
  have hfirst := firstLine_of_block (hbs ▸ hlines) A.length
  rw [← hline] at hfirst
  obtain ⟨l, hl⟩ : ∃ l, (ofText s).lines[n]? = some l := ⟨_, List.getElem?_eq_getElem h⟩
  have hindex : l.index = n := by
    rw [numbered_lines s n l hl, Nat.zero_add]
  have hlb : l ∈ b.lines := by
    rw [hlines, hbs, List.flatMap_append, List.flatMap_cons,
      List.getElem?_append_right hlo, List.getElem?_append_left (by omega)] at hl
    exact List.mem_of_getElem? hl
  by_cases hpiece : l ∈ (b.first :: b.more).map Piece.line
  · left
    have hmem : n ∈ e.line.fragments.map Fragment.line := by
      rw [hline, Block.logical, LogicalLine.fragments_ofPieces,
        LogicalLine.map_line_fragmentsOf]
      obtain ⟨q, hq, hql⟩ := List.mem_map.mp hpiece
      exact List.mem_map.mpr ⟨q, hq, by rw [hql, hindex]⟩
    obtain ⟨f, hf, hfn⟩ := List.mem_map.mp hmem
    exact ⟨e, he, f, hf, hfn⟩
  · right
    have hcomment := ((b.joins.mem_or_follows hlb).resolve_left hpiece).1
    refine ⟨⟨l, hl, hcomment⟩, e, he, ?_, ?_⟩
    · -- the first line of the block gives its first piece
      have hne : e.line.firstLine ≠ n := by
        rintro rfl
        have hmem : b.first.line ∈ b.lines := b.joins.sublist.subset (by simp)
        have heq := (numbered_lines s).eq_of_index (mem_lines (hbs ▸ hlines) hmem)
          (List.mem_of_getElem? hl) (by rw [hindex, hline]; rfl)
        exact hpiece (heq ▸ List.mem_cons_self ..)
      omega
    · intro e' he' hlt
      obtain ⟨A', b', B', hbs', hline'⟩ := exists_split hmap he'
      have hfirst' := firstLine_of_block (hbs' ▸ hlines) A'.length
      rw [← hline'] at hfirst'
      have hpos : 0 < b'.lines.length := List.length_pos_iff.mpr b'.lines_ne_nil
      by_cases hc : e'.line.firstLine < (A.flatMap Block.lines).length + b.lines.length
      · obtain ⟨rfl, -, -⟩ := Block.split_unique (hbs.symm.trans hbs') (n := e'.line.firstLine)
          (by omega) hc (by omega) (by omega)
        omega
      · omega

end Document

end Dockerfile
