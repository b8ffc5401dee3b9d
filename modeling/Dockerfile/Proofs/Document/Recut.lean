import Dockerfile.Proofs.Document.Instructions
import Dockerfile.Proofs.Line.Cut
import Dockerfile.Proofs.Line.Shift

/-!
# Two ways to write an instruction

An instruction that takes one whole line can be cut into continued lines. The two documents are read
in step: up to the line nothing is different; the cut lines are joined to the same logical text, so
they give the same entry on other fragments; and all that follows is moved down.

* `Recut` — how the entries of the two documents correspond
* `exists_recut` — they do so
-/

namespace Dockerfile

namespace Entry

/-- The entry on its lines moved. -/
def shift (m n : Nat) (e : Entry) : Entry := { e with line := e.line.shift m n }

/-- The entry takes one physical line, of the given length, and all of its content. -/
def IsWholeLine (e : Entry) (line length : Nat) : Prop :=
  e.line.fragments.map (fun f => (f.line, f.endColumn)) = [(line, length)]

instance (e : Entry) (line length : Nat) : Decidable (e.IsWholeLine line length) :=
  inferInstanceAs (Decidable (_ = _))

theorem classify_shift {m n : Nat} (h : Header) (l : LogicalLine) :
    classify h (l.shift m n) = ((classify h l).1.shift m n, (classify h l).2) := rfl

end Entry

/-! ## The line that is to be cut -/

/-- A comment line does not start an instruction. -/
theorem isComment_of_instruction {escape : List Char} {l : PhysicalLine} {ls : List PhysicalLine}
    {index : Nat} {fed : Option Directive} {i : Instruction}
    (h : Node.ofLine (.ofPieces index (join escape l ls).1 (join escape l ls).2.1) fed
      = .instruction i) : l.isComment = false := by
  rw [← Bool.not_eq_true]
  intro hc
  rw [join_comment hc] at h
  have hnot := (Node.of_instruction h).2.2.1
  rw [LogicalLine.isComment, LogicalLine.text_ofPieces, List.flatMap_singleton] at hnot
  exact absurd hc (by rw [Bool.not_eq_true]; exact hnot)

/-- A line of which nothing is cut off is not continued. -/
theorem beforeMarker?_of_join {e : Char} {l : PhysicalLine} {ls : List PhysicalLine}
    (hc : l.isComment = false) (hkept : (join [e] l ls).1.kept.length = l.content.length) :
    l.beforeMarker? [e] = none := by
  refine Option.eq_none_iff_forall_ne_some.mpr fun kept hm => ?_
  rw [join_marked hc hm] at hkept
  unfold PhysicalLine.beforeMarker? at hm
  split at hm
  · cases hm
  · exact absurd hkept (Nat.ne_of_lt (length_lt_of_beforeMarker? hm))

section WholeLine

variable {s : List Char} {pre post : List RawLine} {line : RawLine} {e : Entry} {i : Instruction}

/-- An instruction that takes one whole line is read where the line starts, and the line is neither
a comment nor continued. -/
theorem Document.exists_reaches_wholeLine (hs : RawLine.ofText s = pre ++ line :: post)
    (he : e ∈ (ofText s).entries) (hi : e.node = .instruction i)
    (hwhole : e.IsWholeLine pre.length line.content.length) :
    ∃ items h, Reaches (fun h => h.escape.text) Entry.classify 0 .initial
        (PhysicalLine.number 0 0 pre) items h
      ∧ isCommentText line.content = false
      ∧ PhysicalLine.beforeMarker? h.escape.text { line with
          index := pre.length, start := (pre.flatMap RawLine.text).length } = none
      ∧ e = (Entry.classify h (.ofPieces items.length (PhysicalLine.whole { line with
          index := pre.length, start := (pre.flatMap RawLine.text).length }) [])).1 := by
  obtain ⟨used, l, rest, items, h, hsplit, hreach, hitem⟩ := exists_reaches he
  obtain ⟨f, hf, hends⟩ := List.map_eq_singleton_iff.mp hwhole
  obtain ⟨hline, hend⟩ := Prod.mk.inj hends
  have hfirst : LogicalLine.fragmentOf 0 (join h.escape.text l rest).1 = f := by
    rw [hitem] at hf
    exact (List.cons.inj hf).1
  -- the entry starts on the line behind `pre`
  have hlength : used.length = pre.length := by
    have hindex := PhysicalLine.numbered_ofText s used.length l (by rw [hsplit]; simp)
    rw [← hline, ← hfirst, LogicalLine.fragmentOf, join_fst_line, hindex, Nat.zero_add]
  rw [PhysicalLine.ofText_eq hs] at hsplit
  obtain ⟨rfl, hrest⟩ := List.append_inj hsplit (by rw [hlength, PhysicalLine.length_number])
  obtain ⟨rfl, -⟩ := List.cons.inj hrest
  have hcomment := isComment_of_instruction ((congrArg Entry.node hitem).symm.trans hi)
  have hmarker := beforeMarker?_of_join hcomment (by rw [← hend, ← hfirst]; rfl)
  refine ⟨items, h, hreach, hcomment, hmarker, ?_⟩
  rw [hitem]
  exact congrArg (fun j => (Entry.classify h (.ofPieces items.length j.1 j.2.1)).1)
    (join_closed hcomment hmarker rest)

end WholeLine

/-! ## The two documents -/

/-- The entries of two documents, the second of which is the first with its line `line` cut: the
entries before are the same, the entry of the line has the same text on the fragments of the pieces,
and the entries after are moved down, by `n` characters in the text. -/
structure Recut (line n : Nat) (c : Cut) (before : List Entry) (e e' : Entry) (after : List Entry)
    (d d' : Document) : Prop where
  entries : d.entries = before ++ e :: after
  entries' : d'.entries = before ++ e' :: after.map (Entry.shift c.added n)
  header : d'.header = d.header
  index : e'.line.index = e.line.index
  text : e'.line.text = e.line.text
  node : e'.node = e.node
  fragments : e.line.fragments.map (fun f => (f.line, f.endColumn, f.logicalStart))
    = [(line, c.content.length, 0)]
  fragments' : ∀ k, (e'.line.fragments[k]?).map (fun f => (f.line, f.endColumn, f.logicalStart))
    = (c.pieces[k]?).map fun p => (line + c.lineOf k, p.length, c.columnOf k)
  line_lt : ∀ a ∈ before, ∀ f ∈ a.line.fragments, f.line < line
  lt_line : ∀ a ∈ after, ∀ f ∈ a.line.fragments, line < f.line

/-- What an entry is depends on the text alone. -/
theorem Entry.node_classify_congr {h : Header} {l l' : LogicalLine} (ht : l'.text = l.text) :
    (classify h l').1.node = (classify h l).1.node := by
  show Node.ofLine l' (h.feed l'.text).1 = Node.ofLine l (h.feed l.text).1
  unfold Node.ofLine LogicalLine.isBlank LogicalLine.isComment
  rw [ht]

/-- The entries and the top of a document behind an instruction: the top is closed. -/
theorem Document.read_behind {s : List Char} {used ls rest : List PhysicalLine}
    {items : List Entry} {h : Header} {l : PhysicalLine} {first : Piece} {more : List Piece}
    {i : Instruction} (hjoin : ∀ rest, join h.escape.text l (ls ++ rest) = (first, more, rest))
    (hlines : PhysicalLine.ofText s = used ++ l :: (ls ++ rest))
    (hreach : Reaches (fun h => h.escape.text) Entry.classify 0 .initial used items h)
    (hi : (Entry.classify h (.ofPieces items.length first more)).1.node = .instruction i) :
    (ofText s).entries = items ++ (Entry.classify h (.ofPieces items.length first more)).1
        :: (foldLines (fun h => h.escape.text) Entry.classify (items.length + 1)
          { h with isOpen := false } rest).1
      ∧ (ofText s).header = { h with isOpen := false } := by
  obtain ⟨hfed, hblank, -, -⟩ := Node.of_instruction hi
  have hclosed : (Entry.classify h (.ofPieces items.length first more)).2
      = { h with isOpen := false } := Header.feed_snd_of_none hfed hblank
  have hsingle : Reaches (fun h => h.escape.text) Entry.classify (0 + items.length) h (l :: ls)
      [(Entry.classify h (.ofPieces items.length first more)).1] { h with isOpen := false } := by
    rw [Nat.zero_add, ← hclosed]
    exact Reaches.single hjoin
  have hread := hreach.append hsingle rest
  rw [List.append_assoc, List.cons_append, ← hlines, List.append_assoc, List.length_append,
    List.length_singleton, Nat.zero_add] at hread
  exact ⟨congrArg Prod.fst hread,
    (congrArg Prod.snd hread).trans (Entry.foldLines_snd_of_closed rfl _ rest)⟩

/-- The physical lines of a text around a line that is cut. -/
theorem PhysicalLine.ofText_eq_cut {s : List Char} {pre post : List RawLine} {ending : LineEnding}
    {escape : Escape} (c : Cut) (hs : RawLine.ofText s = pre ++ c.lines escape ending ++ post)
    {l : PhysicalLine} {ls : List PhysicalLine}
    (hnumber : number pre.length (pre.flatMap RawLine.text).length (c.lines escape ending)
      = l :: ls) :
    PhysicalLine.ofText s = number 0 0 pre ++ l :: (ls ++
      (number (pre.length + 1) ((pre.flatMap RawLine.text).length
        + (RawLine.text ⟨c.content, ending⟩).length) post).map
          (shift c.added (((c.lines escape ending).flatMap RawLine.text).length
            - (RawLine.text ⟨c.content, ending⟩).length))) := by
  have hle : (RawLine.text ⟨c.content, ending⟩).length
      ≤ ((c.lines escape ending).flatMap RawLine.text).length := by
    rw [RawLine.text, List.length_append]
    exact c.length_text_le
  have hpost : number (pre.length + (c.lines escape ending).length)
        ((pre.flatMap RawLine.text).length
          + ((c.lines escape ending).flatMap RawLine.text).length) post
      = number (pre.length + 1 + c.added) ((pre.flatMap RawLine.text).length
          + (RawLine.text ⟨c.content, ending⟩).length
          + (((c.lines escape ending).flatMap RawLine.text).length
            - (RawLine.text ⟨c.content, ending⟩).length)) post := by
    rw [c.length_lines]
    congr 1 <;> omega
  rw [← number_shift, ← hpost, ← List.cons_append, ← hnumber, PhysicalLine.ofText, hs,
    List.append_assoc, number_append, number_append, Nat.zero_add, Nat.zero_add]

/-- **Cutting a line keeps the entries**, apart from the places of their fragments. -/
theorem exists_recut {s s' : List Char} {pre post : List RawLine} {ending : LineEnding} {e : Entry}
    {i : Instruction} (c : Cut) (hs : RawLine.ofText s = pre ++ ⟨c.content, ending⟩ :: post)
    (he : e ∈ (Document.ofText s).entries) (hi : e.node = .instruction i)
    (hwhole : e.IsWholeLine pre.length c.content.length)
    (hs' : RawLine.ofText s'
      = pre ++ c.lines (Document.ofText s).escape ending ++ post) :
    ∃ before e' after n,
      Recut pre.length n c before e e' after (Document.ofText s) (Document.ofText s') := by
  obtain ⟨items, h, hreach, hcomment, hmarker, hitem⟩ :=
    Document.exists_reaches_wholeLine hs he hi hwhole
  let start := (pre.flatMap RawLine.text).length
  let l : PhysicalLine := ⟨⟨c.content, ending⟩, pre.length, start⟩
  -- the first document
  have hnode := (congrArg Entry.node hitem).symm.trans hi
  have hjoin : ∀ rest, join h.escape.text l ([] ++ rest) = (l.whole, [], rest) :=
    join_closed hcomment hmarker
  obtain ⟨hentries, hheader⟩ :=
    Document.read_behind hjoin (PhysicalLine.ofText_eq hs) hreach hnode
  rw [← hitem] at hentries
  have hescape : (Document.ofText s).escape = h.escape := by
    rw [Document.escape, hheader]
    rfl
  rw [hescape] at hs'
  -- the second document
  obtain ⟨l', ls, first, more, hnumber, hjoined, hjoin'⟩ :=
    c.join_lines hcomment (PhysicalLine.beforeMarker?_eq_none_iff.mp hmarker) pre.length start
  have htext : (LogicalLine.ofPieces items.length first more).text
      = (LogicalLine.ofPieces items.length l.whole []).text := by
    rw [LogicalLine.text_ofPieces, ← hjoined, Break.flatMap_kept_joined, LogicalLine.text_ofPieces,
      List.flatMap_singleton]
    rfl
  have hnode' := (Entry.node_classify_congr htext).trans hnode
  obtain ⟨hentries', hheader'⟩ :=
    Document.read_behind hjoin' (PhysicalLine.ofText_eq_cut c hs' hnumber) hreach hnode'
  rw [foldLines_shift Entry.classify_shift] at hentries'
  refine ⟨items, _, _, _, hentries, hentries', hheader'.trans hheader.symm, ?_, ?_, ?_, ?_, ?_, ?_,
    ?_⟩
  · rw [hitem]
    rfl
  · rw [hitem]
    exact htext
  · rw [hnode', hi]
  · rw [hitem]
    rfl
  · intro k
    show ((LogicalLine.ofPieces items.length first more).fragments[k]?).map _ = _
    rw [LogicalLine.fragments_ofPieces, ← hjoined, Break.getElem?_fragmentsOf_joined]
    simp only [Nat.zero_add]
    rfl
  · intro a ha f hf
    have hitems : (foldLines (fun h => h.escape.text) Entry.classify 0 .initial
        (PhysicalLine.number 0 0 pre)).1 = items := congrArg Prod.fst hreach.foldLines_eq
    obtain ⟨q, hq, hline⟩ := Entry.exists_line_of_mem (hitems ▸ ha) hf
    have := (PhysicalLine.numbered_number 0 0 pre).index_lt hq
    rw [PhysicalLine.length_number] at this
    omega
  · intro a ha f hf
    obtain ⟨q, hq, hline⟩ := Entry.exists_line_of_mem ha hf
    have := ((PhysicalLine.numbered_number _ _ post).getElem?_of_mem hq).1
    omega

end Dockerfile
