import Mathlib.Data.List.Basic
import Mathlib.Data.List.TakeWhile
import Dockerfile.Proofs.Document.Append
import Dockerfile.Proofs.Document.Recut
import Dockerfile.Proofs.Variable.Renumber

/-!
# A line that says nothing

A blank line makes an entry of its own and leaves the top of the document as it is. So does a
comment line, whatever it ends in, once the top is closed. If such a line is put in where a logical
line starts, then the text behind it is read just as before: each entry has the next higher number
and stands one line further down.

* `foldLines_inert` — what is made of such a line
* `Inserted` — how the entries of the two documents correspond
* `exists_inserted` — they do so
* `Inserted.table`, `Inserted.references` — what is kept stays, under the higher numbers
-/

namespace Dockerfile

/-! ## Lines of a text -/

namespace RawLine

/-- A line without line endings is cut off in front of a line feed. -/
theorem ofText_line {content : List Char} (hcr : '\r' ∉ content) (hlf : '\n' ∉ content)
    (s : List Char) : ofText (content ++ '\n' :: s) = ⟨content, .lf⟩ :: ofText s := by
  have hs := ofText_append hcr hlf (s := '\n' :: s) (by rw [ofText])
  rwa [List.append_nil] at hs

/-- A text that is empty or ends with a line feed ends in front of a line. -/
theorem exists_complete {u : List Char} (hu : u = [] ∨ u.getLast? = some '\n') :
    ∃ front, ∀ s, ofText (u ++ s) = front ++ ofText s := by
  rcases hu with rfl | hu
  · exact ⟨[], fun s => rfl⟩
  · obtain ⟨t, rfl⟩ := List.getLast?_eq_some_iff.mp hu
    obtain ⟨front, -, hfront⟩ := exists_front t
    exact ⟨front, fun s => by rw [List.append_assoc, List.singleton_append, hfront]⟩

end RawLine

/-! ## One line that says nothing -/

/-- The line has no effect behind the given top: it is blank, or it is a comment line and the top is
closed. -/
def Header.Inert (h : Header) (content : List Char) : Prop :=
  isAllBlank content = true ∨ isCommentText content = true ∧ h.isOpen = false

/-- The entry of a line without effect. -/
def PhysicalLine.inertEntry (index : Nat) (l : PhysicalLine) : Entry :=
  ⟨.ofPieces index l.whole [], if isAllBlank l.content then .blank else .comment⟩

/-- Blanks are no marker. -/
theorem PhysicalLine.beforeMarker?_of_isAllBlank {l : PhysicalLine} {e : Escape}
    (hb : isAllBlank l.content = true) : l.beforeMarker? e.text = none := by
  refine Option.eq_none_iff_forall_ne_some.mpr fun kept hm => ?_
  obtain ⟨-, blanks, -, hcontent⟩ := beforeMarker?_eq_some hm
  have hmem : e.char ∈ l.content := by rw [hcontent, Escape.text]; simp
  have hblank := List.all_eq_true.mp hb _ hmem
  rw [e.isBlank_char] at hblank
  cases hblank

section Inert

variable {h : Header} {l : PhysicalLine} (hl : h.Inert l.content)

include hl

/-- **A line without effect is not joined with the next one**, whatever it ends in. -/
theorem join_inert (ls : List PhysicalLine) : join h.escape.text l ls = (l.whole, [], ls) := by
  rcases hl with hb | ⟨hc, -⟩
  · exact join_closed (isCommentText_of_isAllBlank hb) (PhysicalLine.beforeMarker?_of_isAllBlank hb)
      ls
  · exact join_comment hc ls

theorem classify_inert (index : Nat) :
    Entry.classify h (.ofPieces index l.whole []) = (l.inertEntry index, h) := by
  have htext : (LogicalLine.ofPieces index l.whole []).text = l.content := by
    rw [LogicalLine.text_ofPieces, List.flatMap_singleton]
    rfl
  have hfeed : h.feed l.content = (none, h) := by
    rcases hl with hb | ⟨-, hclosed⟩
    · simp [Header.feed, hb]
    · exact Header.feed_of_closed hclosed _
  have hnode : Node.ofLine (.ofPieces index l.whole []) none
      = if isAllBlank l.content then .blank else .comment := by
    unfold Node.ofLine LogicalLine.isBlank LogicalLine.isComment
    rw [htext]
    rcases hl with hb | ⟨hc, -⟩
    · simp only [hb, if_true]
    · simp only [hc, if_true]
  unfold Entry.classify
  rw [htext, hfeed]
  exact Prod.ext (congrArg (Entry.mk _) hnode) rfl

/-- **A line without effect makes an entry of its own and leaves the top as it is.** -/
theorem foldLines_inert (index : Nat) (ls : List PhysicalLine) :
    foldLines (fun h => h.escape.text) Entry.classify index h (l :: ls)
      = (l.inertEntry index
          :: (foldLines (fun h => h.escape.text) Entry.classify (index + 1) h ls).1,
        (foldLines (fun h => h.escape.text) Entry.classify (index + 1) h ls).2) := by
  rw [foldLines]
  simp only [join_inert hl, classify_inert hl]

end Inert

/-! ## Where a line can be put in -/

namespace Document

/-- Some entry is an instruction or a comment other than a directive. -/
def HasBody (d : Document) : Prop :=
  ∃ e ∈ d.entries, e.node = .comment ∨ ∃ i, e.node = .instruction i

/-- The number of lines that have an ending. -/
def completeLines (d : Document) : Nat := d.lines.length - 1

/-- The number of entries in front of the last one. -/
def completeEntries (d : Document) : Nat := d.entries.length - 1

/-- The text is empty, or it ends with a line feed and no continuation is open there. -/
def Complete (u : List Char) : Prop :=
  u = [] ∨ u.getLast? = some '\n' ∧ (ofText u).EndsFresh

/-- What stands behind a complete text goes in place of its empty last line. -/
theorem Complete.exists_reaches {u : List Char} (hu : Complete u) :
    ∃ front items h, (∀ s, RawLine.ofText (u ++ s) = front ++ RawLine.ofText s)
      ∧ Reaches (fun h => h.escape.text) Entry.classify 0 .initial
          (PhysicalLine.number 0 0 front) items h := by
  obtain ⟨front, hfront⟩ := RawLine.exists_complete (hu.imp_right And.left)
  rcases hu with rfl | ⟨-, hfresh⟩
  · obtain rfl : front = [] := List.self_eq_append_left.mp (hfront [])
    exact ⟨[], [], .initial, hfront, .nil⟩
  · have hlines : PhysicalLine.ofText u = PhysicalLine.number 0 0 front
        ++ [⟨⟨[], .none⟩, front.length, (front.flatMap RawLine.text).length⟩] := by
      have hraw : RawLine.ofText u = front ++ ⟨[], .none⟩ :: [] := by
        rw [← List.append_nil u, hfront]
        rfl
      exact PhysicalLine.ofText_eq hraw
    obtain ⟨items, h, hreach⟩ := hfresh.exists_reaches hlines
    exact ⟨front, items, h, hfront, hreach⟩

section Reaches

variable {u : List Char} {front : List RawLine} {items : List Entry} {h : Header}
  (hfront : ∀ s, RawLine.ofText (u ++ s) = front ++ RawLine.ofText s)
  (hr : Reaches (fun h => h.escape.text) Entry.classify 0 .initial
    (PhysicalLine.number 0 0 front) items h)

include hfront

/-- The lines behind a complete text are counted from its complete lines on. -/
theorem lines_append (s : List Char) : PhysicalLine.ofText (u ++ s) = PhysicalLine.number 0 0 front
    ++ PhysicalLine.number front.length (front.flatMap RawLine.text).length (RawLine.ofText s) := by
  rw [PhysicalLine.ofText, hfront, PhysicalLine.number_append, Nat.zero_add, Nat.zero_add]

theorem completeLines_eq : (ofText u).completeLines = front.length := by
  have hlines : (ofText u).lines = _ := List.append_nil u ▸ lines_append hfront []
  rw [completeLines, hlines, List.length_append, PhysicalLine.length_number,
    PhysicalLine.length_number]
  rfl

include hr

/-- The entries behind a complete text are counted from its complete entries on. -/
theorem read_append (s : List Char) : Entry.ofLines (PhysicalLine.ofText (u ++ s))
    = (items ++ (foldLines (fun h => h.escape.text) Entry.classify items.length h
        (PhysicalLine.number front.length (front.flatMap RawLine.text).length
          (RawLine.ofText s))).1,
      (foldLines (fun h => h.escape.text) Entry.classify items.length h
        (PhysicalLine.number front.length (front.flatMap RawLine.text).length
          (RawLine.ofText s))).2) := by
  rw [Entry.ofLines, lines_append hfront, hr, Nat.zero_add]

/-- The empty last line makes one blank entry. -/
theorem entries_of_complete :
    ∃ last, (ofText u).entries = items ++ [last] ∧ last.node = .blank := by
  have hread : (ofText u).entries = items ++ _ :=
    congrArg Prod.fst (List.append_nil u ▸ read_append hfront hr [])
  rw [RawLine.ofText, PhysicalLine.number, foldLines_inert (Or.inl rfl), PhysicalLine.number,
    foldLines] at hread
  exact ⟨_, hread, rfl⟩

theorem completeEntries_eq : (ofText u).completeEntries = items.length := by
  obtain ⟨last, hentries, -⟩ := entries_of_complete hfront hr
  rw [completeEntries, hentries, List.length_append, List.length_singleton, Nat.add_sub_cancel]

/-- Behind a comment or an instruction the top is closed. -/
theorem isOpen_of_hasBody (hbody : (ofText u).HasBody) : h.isOpen = false := by
  obtain ⟨last, hentries, hblank⟩ := entries_of_complete hfront hr
  obtain ⟨e, he, hnode⟩ := hbody
  have hends : e.node.EndsTop := by
    rcases hnode with hc | ⟨i, hi⟩
    · rw [hc]
      exact ⟨by simp, by simp⟩
    · exact endsTop_of_instruction hi
  have hitem : e ∈ items := by
    rw [hentries] at he
    rcases List.mem_append.mp he with he | he
    · exact he
    · rw [List.mem_singleton] at he
      exact absurd (he ▸ hblank) hends.1
  obtain ⟨i, hi⟩ := List.mem_iff_getElem?.mp hitem
  obtain ⟨hlt, -⟩ := List.getElem?_eq_some_iff.mp hi
  have hget : (ofText u).entries[i]? = some e := by
    rw [hentries, List.getElem?_append_left hlt, hi]
  have hclosed := isOpen_headerAt_of_endsTop hget hends hlt
  rwa [headerAt, hentries, List.take_left, ← hr.eq_behind] at hclosed

end Reaches

end Document

/-! ## The two documents -/

/-- The entry under a number that is higher by `k`. -/
def Entry.advance (k : Nat) (e : Entry) : Entry := { e with line := e.line.advance k }

theorem Entry.classify_advance {k : Nat} (h : Header) (l : LogicalLine) :
    classify h (l.advance k) = ((classify h l).1.advance k, (classify h l).2) := rfl

/-- The entry one line down, its text `n` characters further on, under the next number. -/
def Entry.lower (n : Nat) (e : Entry) : Entry := (e.shift 1 n).advance 1

/-- The number that the entry `i` has when one is put in at `k`. -/
def lowerFrom (k i : Nat) : Nat := if i < k then i else i + 1

theorem strictMono_lowerFrom (k : Nat) : StrictMono (lowerFrom k) := by
  intro i j hij
  unfold lowerFrom
  split <;> split <;> omega

/-- The entries of two documents, the second of which has one line more, at line `line`: those in
front are the same, the line has an entry of its own that is blank or a comment, and those behind it
are moved one line and one number down. -/
structure Inserted (line k : Nat) (before : List Entry) (e : Entry) (after : List Entry) (n : Nat)
    (d d' : Document) : Prop where
  entries : d.entries = before ++ after
  entries' : d'.entries = before ++ e :: after.map (Entry.lower n)
  header : d'.header = d.header
  node : e.node = .blank ∨ e.node = .comment
  lines : ∀ f ∈ e.line.fragments, f.line = line
  index_lt : ∀ a ∈ before, a.line.index < k
  le_index : ∀ a ∈ after, k ≤ a.line.index
  line_lt : ∀ a ∈ before, ∀ f ∈ a.line.fragments, f.line < line
  le_line : ∀ a ∈ after, ∀ f ∈ a.line.fragments, line ≤ f.line

/-- The text of a line that may be put in behind a complete text. -/
def Document.Inert (d : Document) (content : List Char) : Prop :=
  isAllBlank content = true
    ∨ isCommentText content = true ∧ '\r' ∉ content ∧ '\n' ∉ content ∧ d.HasBody

theorem Document.Inert.endings {d : Document} {content : List Char} (hline : d.Inert content) :
    '\r' ∉ content ∧ '\n' ∉ content := by
  rcases hline with hb | ⟨-, hcr, hlf, -⟩
  · exact ⟨fun hmem => absurd (List.all_eq_true.mp hb _ hmem) (by decide),
      fun hmem => absurd (List.all_eq_true.mp hb _ hmem) (by decide)⟩
  · exact ⟨hcr, hlf⟩

/-- **A line without effect moves down what is behind it**, and nothing else. -/
theorem exists_inserted {u content : List Char} (v : List Char) (hu : Document.Complete u)
    (hline : (Document.ofText u).Inert content) :
    ∃ before e after n, Inserted (Document.ofText u).completeLines
      (Document.ofText u).completeEntries before e after n
      (Document.ofText (u ++ v)) (Document.ofText (u ++ (content ++ '\n' :: v))) := by
  obtain ⟨front, items, h, hfront, hr⟩ := hu.exists_reaches
  obtain ⟨hcr, hlf⟩ := hline.endings
  let start := (front.flatMap RawLine.text).length
  let l : PhysicalLine := ⟨⟨content, .lf⟩, front.length, start⟩
  have hinert : h.Inert l.content := by
    refine hline.imp_right fun ⟨hc, _, _, hbody⟩ => ⟨hc, ?_⟩
    exact Document.isOpen_of_hasBody hfront hr hbody
  let back := PhysicalLine.number front.length start (RawLine.ofText v)
  have hback : PhysicalLine.number front.length start (RawLine.ofText (content ++ '\n' :: v))
      = l :: back.map (PhysicalLine.shift 1 (RawLine.text l.toRawLine).length) := by
    rw [RawLine.ofText_line hcr hlf, PhysicalLine.number, PhysicalLine.number_shift]
  let n := (RawLine.text l.toRawLine).length
  let after := (foldLines (fun h => h.escape.text) Entry.classify items.length h back).1
  -- the second document reads the moved lines one number further on
  have hmoved : foldLines (fun h => h.escape.text) Entry.classify (items.length + 1) h
      (back.map (PhysicalLine.shift 1 n))
        = (after.map (Entry.lower n), (foldLines (fun h => h.escape.text) Entry.classify
          items.length h back).2) := by
    rw [foldLines_advance Entry.classify_advance, foldLines_shift Entry.classify_shift,
      List.map_map]
    rfl
  have hread := Document.read_append hfront hr v
  have hread' := Document.read_append hfront hr (content ++ '\n' :: v)
  rw [hback, foldLines_inert hinert, hmoved] at hread'
  have hentries' : (Document.ofText (u ++ (content ++ '\n' :: v))).entries
      = items ++ l.inertEntry items.length :: after.map (Entry.lower n) := congrArg Prod.fst hread'
  obtain ⟨later, hentries, hlater⟩ := Document.exists_later (Document.lines_append hfront v) hr
  have hafter : later = after :=
    List.append_cancel_left (hentries.symm.trans (congrArg Prod.fst hread))
  have hfirst : (foldLines (fun h => h.escape.text) Entry.classify 0 .initial
      (PhysicalLine.number 0 0 front)).1 = items := congrArg Prod.fst hr.foldLines_eq
  rw [Document.completeLines_eq hfront, Document.completeEntries_eq hfront hr]
  rw [hafter] at hentries hlater
  refine ⟨items, _, after, n, hentries, hentries',
    (congrArg Prod.snd hread').trans (congrArg Prod.snd hread).symm, ?_, ?_, ?_, ?_, ?_, ?_⟩
  · unfold PhysicalLine.inertEntry
    split
    · exact Or.inl rfl
    · exact Or.inr rfl
  · intro f hf
    obtain rfl := List.mem_singleton.mp hf
    rfl
  · intro a ha
    exact (Document.index_lt_of_mem (Document.lines_append hfront v) hr ha).1
  · exact fun a ha => (hlater a ha).1
  · intro a ha f hf
    obtain ⟨q, hq, hline⟩ := Entry.exists_line_of_mem (hfirst ▸ ha) hf
    have := (PhysicalLine.numbered_number 0 0 front).index_lt hq
    rw [PhysicalLine.length_number] at this
    omega
  · intro a ha f hf
    have := (hlater a ha).2 f hf
    rwa [PhysicalLine.length_number] at this

/-! ## What is kept -/

namespace Inserted

open Document

variable {s s' : List Char} {line k n : Nat} {before after : List Entry} {e : Entry}
  (h : Inserted line k before e after n (ofText s) (ofText s'))

include h

/-- The instructions are the same under higher numbers. -/
theorem instructions : (ofText s').entries.filterMap Entry.instruction?
    = ((ofText s).entries.filterMap Entry.instruction?).map fun x => (lowerFrom k x.1, x.2) := by
  have hnone : e.instruction? = none := by
    rcases h.node with hn | hn <;> simp only [Entry.instruction?, hn]
  rw [h.entries, h.entries', List.filterMap_append, List.filterMap_cons, hnone, List.filterMap_map,
    List.filterMap_append, List.map_append, List.map_filterMap, List.map_filterMap]
  refine congrArg₂ (· ++ ·) (List.filterMap_congr fun a ha => ?_)
    (List.filterMap_congr fun a ha => ?_)
  · cases hi : a.instruction? with
    | none => rfl
    | some x =>
      have hlt : x.1 < k := (Entry.of_instruction? hi).1 ▸ h.index_lt a ha
      rw [Option.map_some, lowerFrom, if_pos hlt]
  · have hlower : (a.lower n).instruction? = a.instruction?.map fun x => (x.1 + 1, x.2) := by
      unfold Entry.instruction?
      rw [show (a.lower n).node = a.node from rfl]
      split <;> rfl
    rw [Function.comp_apply, hlower]
    cases hi : a.instruction? with
    | none => rfl
    | some x =>
      have hle : k ≤ x.1 := (Entry.of_instruction? hi).1 ▸ h.le_index a ha
      rw [Option.map_some, Option.map_some, lowerFrom, if_neg (Nat.not_lt.mpr hle)]

/-- **The declarations are the same under higher numbers.** -/
theorem table : (ofText s').table = (ofText s).table.renumber (lowerFrom k) := by
  exact (congrArg VariableTable.ofInstructions h.instructions).trans
    (VariableTable.after_renumber 0 _)

/-- **The references are the same under higher numbers**, and see the same. -/
theorem references : (ofText s').references = (ofText s).references.map fun x =>
    (lowerFrom k x.1, x.2.map (ResolvedReference.renumber (lowerFrom k))) := by
  have hescape : (ofText s').escape = (ofText s).escape := congrArg Header.escape h.header
  rw [references_eq, references_eq, h.instructions, h.table, hescape, List.map_map, List.map_map]
  refine List.map_congr_left fun x _ => ?_
  simp only [Function.comp_apply]
  rw [VariableTable.references_renumber (strictMono_lowerFrom k)]

end Inserted

end Dockerfile
