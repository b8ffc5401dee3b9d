import Dockerfile.Document
import Dockerfile.Proofs.Line.Fragments
import Dockerfile.Proofs.Line.Joining
import Dockerfile.Proofs.Line.Numbering

/-!
# Blocks

The physical lines that one logical line takes stand next to each other: they are a block, and a
text is a row of blocks. Everything about which line belongs where is read off this row.

* `joinedUnder_eq_zip`, `foldLines_eq_logicals` — the lines that `foldLines` hands on are those of a
  row of blocks
* `Block.getElem?_lineMap` — the line map numbers the blocks
* `Block.line_of_mem_fragments` — a fragment is on a line of its block
-/

namespace Dockerfile

/-- The physical lines of a logical line, comment lines inside it among them, and its pieces. -/
structure Block where
  escape : List Char
  lines : List PhysicalLine
  first : Piece
  more : List Piece
  joins : Joins escape lines first more

namespace Block

/-- The logical line of a block. -/
def logical (index : Nat) (b : Block) : LogicalLine := .ofPieces index b.first b.more

/-- The logical lines of a row of blocks, numbered from `index` on. -/
def logicals (index : Nat) : List Block → List LogicalLine
  | [] => []
  | b :: more => b.logical index :: logicals (index + 1) more

theorem logicals_append (index : Nat) (as bs : List Block) :
    logicals index (as ++ bs) = logicals index as ++ logicals (index + as.length) bs := by
  induction as generalizing index with
  | nil => rfl
  | cons a as ih =>
    simp only [List.cons_append, logicals, ih, List.length_cons, Nat.add_assoc, Nat.add_comm 1]

theorem getElem?_logicals (index : Nat) (bs : List Block) (i : Nat) :
    (logicals index bs)[i]? = bs[i]?.map (logical (index + i)) := by
  induction bs generalizing index i with
  | nil => rfl
  | cons b bs ih =>
    cases i with
    | zero => rfl
    | succ i => rw [logicals, List.getElem?_cons_succ, List.getElem?_cons_succ, ih,
        Nat.add_assoc, Nat.add_comm 1]

/-- Each logical line of the row goes with the escape text of its block. -/
theorem getElem?_zip_logicals (index : Nat) (bs : List Block) (i : Nat) :
    ((bs.map escape).zip (logicals index bs))[i]?
      = bs[i]?.map fun b : Block => (b.escape, b.logical (index + i)) := by
  rw [List.zip, List.getElem?_zipWith, List.getElem?_map, getElem?_logicals]
  cases bs[i]? <;> rfl

@[simp]
theorem length_logicals (index : Nat) (bs : List Block) :
    (logicals index bs).length = bs.length := by
  induction bs generalizing index with
  | nil => rfl
  | cons b bs ih => simp [logicals, ih]

/-- A logical line of the row is that of a block. -/
theorem exists_of_mem_logicals {index : Nat} {bs : List Block} {l : LogicalLine}
    (h : l ∈ logicals index bs) :
    ∃ A b B, bs = A ++ b :: B ∧ l = b.logical (index + A.length) := by
  induction bs generalizing index with
  | nil => simp [logicals] at h
  | cons b bs ih =>
    rcases List.mem_cons.mp h with rfl | h
    · exact ⟨[], b, bs, rfl, rfl⟩
    · obtain ⟨A, c, B, rfl, rfl⟩ := ih h
      exact ⟨b :: A, c, B, rfl, by rw [List.length_cons, Nat.add_assoc, Nat.add_comm 1]⟩

/-! ## One block among numbered lines -/

section Numbered

variable {b : Block} {n : Nat}

theorem lines_ne_nil (b : Block) : b.lines ≠ [] := by
  obtain ⟨rest, h⟩ := b.joins.exists_cons
  simp [h]

/-- A block starts on its first line. -/
theorem firstLine_logical (h : PhysicalLine.Numbered n b.lines) (index : Nat) :
    (b.logical index).firstLine = n := by
  obtain ⟨rest, hb⟩ := b.joins.exists_cons
  have := h 0 b.first.line (by rw [hb]; rfl)
  simpa [logical, LogicalLine.ofPieces, LogicalLine.firstLine, LogicalLine.fragmentOf] using this

/-- The fragment of a line of the block. -/
theorem exists_of_mem_fragments {index : Nat} {f : Fragment}
    (hf : f ∈ (b.logical index).fragments) :
    ∃ q ∈ b.first :: b.more, q.line ∈ b.lines ∧ f.line = q.line.index
      ∧ f.offset = q.line.start ∧ f.endColumn = q.kept.length
      ∧ ∀ c < f.endColumn, (b.logical index).text[f.logicalStart + c]? = q.line.content[c]? := by
  obtain ⟨q, hq, hline, hoff, hend, htext⟩ := LogicalLine.getElem?_text_of_mem hf
  refine ⟨q, hq, ?_, hline, hoff, hend, fun c hc => ?_⟩
  · exact b.joins.sublist.subset (List.mem_map_of_mem hq)
  · obtain ⟨tail, ht⟩ := b.joins.kept_isPrefix hq
    rw [logical, htext c hc, ← ht, List.getElem?_append_left (hend ▸ hc)]

theorem map_line_fragments (b : Block) (index : Nat) : (b.logical index).fragments.map Fragment.line
    = ((b.first :: b.more).map Piece.line).map fun l => l.index := by
  rw [logical, LogicalLine.fragments_ofPieces, LogicalLine.map_line_fragmentsOf, List.map_map]
  rfl

/-- The fragments of a block are on its lines, each on another one. -/
theorem nodup_line_fragments (h : PhysicalLine.Numbered n b.lines) (index : Nat) :
    ((b.logical index).fragments.map Fragment.line).Nodup := by
  rw [map_line_fragments]
  refine (List.Sublist.map _ b.joins.sublist).nodup ?_
  rw [h.map_index]
  exact List.nodup_range'

end Numbered

/-! ## A row of blocks -/

/-- The fragments of a row are on its lines, in the same order. -/
theorem sublist_line_fragments (index : Nat) (bs : List Block) :
    ((logicals index bs).flatMap fun l => l.fragments.map Fragment.line).Sublist
      ((bs.flatMap Block.lines).map fun l => l.index) := by
  induction bs generalizing index with
  | nil => exact List.Sublist.slnil
  | cons b bs ih =>
    rw [logicals, List.flatMap_cons, List.flatMap_cons, List.map_append, map_line_fragments]
    exact (b.joins.sublist.map _).append (ih _)

/-- A place in the row lies in one of the blocks. -/
theorem exists_split_of_lt {bs : List Block} {n : Nat} (h : n < (bs.flatMap Block.lines).length) :
    ∃ A b B, bs = A ++ b :: B ∧ (A.flatMap Block.lines).length ≤ n
      ∧ n < (A.flatMap Block.lines).length + b.lines.length := by
  induction bs generalizing n with
  | nil => simp at h
  | cons b bs ih =>
    by_cases hn : n < b.lines.length
    · exact ⟨[], b, bs, rfl, Nat.zero_le _, by simpa using hn⟩
    · rw [List.flatMap_cons, List.length_append] at h
      obtain ⟨A, c, B, rfl, hle, hlt⟩ := ih (n := n - b.lines.length) (by omega)
      refine ⟨b :: A, c, B, rfl, ?_, ?_⟩
      · rw [List.flatMap_cons, List.length_append]
        omega
      · rw [List.flatMap_cons, List.length_append]
        omega

/-- The lines of one block in a row are numbered on from those of the blocks before it. -/
theorem numbered_of_append {A B : List Block} {b : Block} {n : Nat}
    (h : PhysicalLine.Numbered n ((A ++ b :: B).flatMap Block.lines)) :
    PhysicalLine.Numbered (n + (A.flatMap Block.lines).length) b.lines := by
  rw [List.flatMap_append, List.flatMap_cons] at h
  exact h.right.left

/-- A fragment of a logical line is on a line of its block. -/
theorem line_of_mem_fragments {A B : List Block} {b : Block} {n index : Nat} {f : Fragment}
    (h : PhysicalLine.Numbered n ((A ++ b :: B).flatMap Block.lines))
    (hf : f ∈ (b.logical index).fragments) :
    n + (A.flatMap Block.lines).length ≤ f.line
      ∧ f.line < n + (A.flatMap Block.lines).length + b.lines.length := by
  obtain ⟨q, -, hq, hline, -⟩ := exists_of_mem_fragments hf
  rw [hline]
  exact ⟨((numbered_of_append h).getElem?_of_mem hq).1, (numbered_of_append h).index_lt hq⟩

/-- Two places in one row that are split at blocks around the same line are the same. -/
theorem split_unique {A A' B B' : List Block} {b b' : Block} (h : A ++ b :: B = A' ++ b' :: B')
    {n : Nat} (hle : (A.flatMap Block.lines).length ≤ n)
    (hlt : n < (A.flatMap Block.lines).length + b.lines.length)
    (hle' : (A'.flatMap Block.lines).length ≤ n)
    (hlt' : n < (A'.flatMap Block.lines).length + b'.lines.length) :
    A = A' ∧ b = b' ∧ B = B' := by
  induction A generalizing A' n with
  | nil =>
    cases A' with
    | nil => exact ⟨rfl, List.cons.inj h⟩
    | cons a A' =>
      obtain ⟨rfl, -⟩ := List.cons.inj h
      simp only [List.flatMap_nil, List.length_nil, List.flatMap_cons, List.length_append]
        at hlt hle'
      omega
  | cons a A ih =>
    cases A' with
    | nil =>
      obtain ⟨rfl, -⟩ := List.cons.inj h
      simp only [List.flatMap_nil, List.length_nil, List.flatMap_cons, List.length_append]
        at hle hlt'
      omega
    | cons a' A' =>
      obtain ⟨rfl, hrest⟩ := List.cons.inj h
      simp only [List.flatMap_cons, List.length_append] at hle hlt hle' hlt'
      obtain ⟨rfl, hb, hB⟩ := ih hrest (n := n - a.lines.length) (by omega) (by omega) (by omega)
        (by omega)
      exact ⟨rfl, hb, hB⟩

/-- The line map of a row gives each line of the first block the number of that block. -/
theorem lineMap_cons {b : Block} {bs : List Block} {n : Nat}
    (h : PhysicalLine.Numbered n ((b :: bs).flatMap Block.lines)) (index : Nat) :
    lineMap (n + ((b :: bs).flatMap Block.lines).length) (logicals index (b :: bs))
      = List.replicate b.lines.length index
        ++ lineMap (n + b.lines.length + (bs.flatMap Block.lines).length)
          (logicals (index + 1) bs) := by
  rw [List.flatMap_cons] at h ⊢
  have hfirst : (b.logical index).firstLine = n := firstLine_logical h.left index
  cases bs with
  | nil =>
    simp only [logicals, lineMap, hfirst, List.flatMap_nil, List.append_nil]
    rw [Nat.add_sub_cancel_left]
    rfl
  | cons c bs =>
    rw [List.flatMap_cons] at h
    have hnext : (c.logical (index + 1)).firstLine = n + b.lines.length :=
      firstLine_logical h.right.left (index + 1)
    simp only [logicals, lineMap, hfirst, hnext, List.length_append, Nat.add_sub_cancel_left,
      Nat.add_assoc]
    rfl

/-- **The line map numbers the blocks.** -/
theorem getElem?_lineMap {A B : List Block} {b : Block} {n : Nat}
    (h : PhysicalLine.Numbered n ((A ++ b :: B).flatMap Block.lines)) (index : Nat) {i : Nat}
    (hi : i < b.lines.length) :
    (lineMap (n + ((A ++ b :: B).flatMap Block.lines).length)
        (logicals index (A ++ b :: B)))[(A.flatMap Block.lines).length + i]?
      = some (index + A.length) := by
  induction A generalizing n index with
  | nil =>
    rw [List.nil_append, lineMap_cons h, List.getElem?_append_left (by simpa using hi)]
    simp [hi]
  | cons a A ih =>
    rw [List.cons_append] at h ⊢
    have hrest : PhysicalLine.Numbered (n + a.lines.length)
        ((A ++ b :: B).flatMap Block.lines) := by
      rw [List.flatMap_cons] at h
      exact h.right
    rw [lineMap_cons h, List.flatMap_cons, List.length_append,
      List.getElem?_append_right (by simp; omega), List.length_replicate,
      show a.lines.length + (A.flatMap Block.lines).length + i - a.lines.length
        = (A.flatMap Block.lines).length + i by omega, ih hrest (index + 1)]
    simp only [List.length_cons, Option.some.injEq]
    omega

end Block

/-! ## The logical lines of a text are those of blocks -/

section Joined

variable {σ α : Type}

/-- The logical lines that physical lines make up, each with the escape text in force for it. After
each line the caller may change the state that the escape text is read from. -/
def joinedUnder (escape : σ → List Char) (next : σ → LogicalLine → σ) (index : Nat) (s : σ)
    (ls : List PhysicalLine) : List (List Char × LogicalLine) :=
  (foldLines escape (fun s l => ((escape s, l), next s l)) index s ls).1

/-- Whatever `foldLines` makes of the logical lines, they are the same. -/
theorem map_line_foldLines {escape : σ → List Char} {step : σ → LogicalLine → α × σ}
    {line : α → LogicalLine} (hline : ∀ s l, line (step s l).1 = l) (index : Nat) (s : σ)
    (ls : List PhysicalLine) : (foldLines escape step index s ls).1.map line
      = (joinedUnder escape (fun s l => (step s l).2) index s ls).map Prod.snd := by
  fun_induction foldLines escape step index s ls with
  | case1 => simp [joinedUnder, foldLines]
  | case2 index s l rest joined stepped more ih =>
    rw [List.map_cons, hline, ih, joinedUnder, joinedUnder, foldLines]
    rfl

/-- **The lines that are handed on are those of a row of blocks**, each joined under the escape text
of its block. -/
theorem joinedUnder_eq_zip (escape : σ → List Char) (next : σ → LogicalLine → σ) (index : Nat)
    (s : σ) (ls : List PhysicalLine) :
    ∃ bs : List Block, ls = bs.flatMap Block.lines ∧ joinedUnder escape next index s ls
      = (bs.map Block.escape).zip (Block.logicals index bs) := by
  unfold joinedUnder
  fun_induction foldLines escape (fun s l => ((escape s, l), next s l)) index s ls with
  | case1 => exact ⟨[], rfl, rfl⟩
  | case2 index s l rest joined stepped more ih =>
    obtain ⟨bs, hrest, hzip⟩ := ih
    obtain ⟨used, hsplit, hjoins⟩ := join_joins (escape s) l rest
    refine ⟨⟨escape s, used, _, _, hjoins⟩ :: bs, ?_, ?_⟩
    · rw [List.flatMap_cons, ← hrest]
      exact hsplit
    · rw [List.map_cons, Block.logicals, List.zip_cons_cons, ← hzip]
      rfl

/-- **The lines that `foldLines` hands on are those of a row of blocks**, whatever is made of them
and whatever escape texts are in force on the way. -/
theorem foldLines_eq_logicals {escape : σ → List Char} {step : σ → LogicalLine → α × σ}
    {line : α → LogicalLine} (hline : ∀ s l, line (step s l).1 = l) (index : Nat) (s : σ)
    (ls : List PhysicalLine) :
    ∃ bs : List Block, ls = bs.flatMap Block.lines
      ∧ (foldLines escape step index s ls).1.map line = Block.logicals index bs := by
  obtain ⟨bs, hlines, hzip⟩ := joinedUnder_eq_zip escape (fun s l => (step s l).2) index s ls
  refine ⟨bs, hlines, ?_⟩
  rw [map_line_foldLines hline, hzip]
  exact List.map_snd_zip (by simp)

end Joined

end Dockerfile
