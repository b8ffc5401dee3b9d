import Mathlib.Data.List.Nodup
import Dockerfile.Proofs.Line.Blocks

/-!
# Nothing is lost, doubled or moved

Joining physical lines to logical ones takes every line of a text once and in order. Each line gives
one fragment, or it is a comment line that a continuation passes over; and of the content of a line
nothing is left out but the marker at its end. This holds for every escape text, blank and empty
ones too, and however the caller changes it from one logical line to the next.

* `Accounts` — what logical lines owe to the text that they are made of
* `accounts_joinedUnder` — they keep it
-/

namespace Dockerfile

/-! ## What is owed -/

/-- The comment line `c` stands behind a line that the logical line is continued on under the escape
text, and there are only comment lines in between. -/
def PassedOver (lines : List PhysicalLine) (escape : List Char) (l : LogicalLine)
    (c : PhysicalLine) : Prop :=
  c.isComment = true ∧ ∃ front q mid back, lines = front ++ q :: (mid ++ c :: back)
    ∧ q.isComment = false ∧ (∀ m ∈ mid, m.isComment = true)
    ∧ ∃ f ∈ l.fragments, f.line = q.index
      ∧ q.beforeMarker? escape = some (q.content.take f.endColumn)

/-- The fragment is on the line from its start on, and what is cut off at its end is nothing or a
marker, which needs an ending behind it. -/
structure Fragment.OnLine (escape : List Char) (f : Fragment) (l : PhysicalLine) : Prop where
  startColumn_eq : f.startColumn = 0
  offset_eq : f.offset = l.start
  endColumn_le : f.endColumn ≤ l.content.length
  cut_off : l.content.drop f.endColumn = [] ∨ l.ending ≠ .none
    ∧ ∃ blanks, isAllBlank blanks = true ∧ l.content.drop f.endColumn = escape ++ blanks

/-- What logical lines, each with the escape text in force for it, owe to the text that they are
made of. -/
structure Accounts (s : List Char) (joined : List (List Char × LogicalLine)) : Prop where
  /-- There are no more of them than physical lines. -/
  length_le : joined.length ≤ (PhysicalLine.ofText s).length
  /-- They are numbered from zero on. -/
  index_eq : ∀ i (x : List Char × LogicalLine), joined[i]? = some x → x.2.index = i
  /-- The physical lines of all fragments, in order, have increasing numbers. -/
  sorted : (joined.flatMap fun x => x.2.fragments.map Fragment.line).Pairwise (· < ·)
  /-- A physical line has one fragment, or it is a comment line passed over and has none. -/
  one_or_passed : ∀ n l, (PhysicalLine.ofText s)[n]? = some l →
    (joined.flatMap fun x => x.2.fragments.map Fragment.line).count n = 1
      ∨ (joined.flatMap fun x => x.2.fragments.map Fragment.line).count n = 0
        ∧ ∃ x ∈ joined, PassedOver (PhysicalLine.ofText s) x.1 x.2 l
  /-- Each fragment is on its line. -/
  onLine : ∀ x ∈ joined, ∀ f ∈ x.2.fragments,
    ∃ l, (PhysicalLine.ofText s)[f.line]? = some l ∧ f.OnLine x.1 l
  /-- Each fragment starts where those in front of it end. -/
  logicalStart_eq : ∀ x ∈ joined, ∀ front f back, x.2.fragments = front ++ f :: back →
    f.logicalStart = (front.map Fragment.length).sum
  /-- The texts of the fragments, one behind the other, are the logical text. -/
  text_eq : ∀ x ∈ joined, x.2.text = x.2.fragments.flatMap (Fragment.textIn s)

/-! ## One block -/

namespace Block

variable {s : List Char} {b : Block}

/-- A fragment of a block is on the line of its piece. -/
theorem onLine_of_mem {index : Nat} {f : Fragment} (hf : f ∈ (b.logical index).fragments) :
    ∃ l ∈ b.lines, f.line = l.index ∧ f.OnLine b.escape l := by
  obtain ⟨q, hq, hmem, hline, hoffset, hend, -⟩ := exists_of_mem_fragments hf
  refine ⟨q.line, hmem, hline, LogicalLine.startColumn_of_mem hf, hoffset, ?_, ?_⟩
  · rw [hend]
    exact (b.joins.kept_isPrefix hq).length_le
  · rw [hend]
    rcases b.joins.whole_or_marked hq with hw | hm
    · exact Or.inl (by rw [hw, List.drop_length])
    · obtain ⟨hne, blanks, hb, hcontent⟩ := PhysicalLine.beforeMarker?_eq_some hm
      exact Or.inr ⟨hne, blanks, hb, by rw [hcontent, List.drop_left]⟩

/-- The text of a block is that of its fragments. -/
theorem text_logical (h : ∀ l ∈ b.lines, l ∈ PhysicalLine.ofText s) (index : Nat) :
    (b.logical index).text = (b.logical index).fragments.flatMap (Fragment.textIn s) := by
  have hkept : ∀ q ∈ b.first :: b.more,
      (s.drop q.line.start).take q.kept.length = q.kept := by
    intro q hq
    have hprefix := b.joins.kept_isPrefix hq
    have hline : q.line ∈ b.lines := b.joins.sublist.subset (List.mem_map_of_mem hq)
    rw [PhysicalLine.take_drop_text (h q.line hline) hprefix.length_le]
    exact (List.prefix_iff_eq_take.mp hprefix).symm
  rw [logical, LogicalLine.fragments_ofPieces, LogicalLine.flatMap_textIn_fragmentsOf hkept]
  rfl

/-- A line of a block has a fragment, or it is passed over and has none. -/
theorem mem_or_passedOver (before after : List PhysicalLine) {n : Nat}
    (hn : PhysicalLine.Numbered n b.lines) {l : PhysicalLine} (hl : l ∈ b.lines) (index : Nat) :
    l.index ∈ (b.logical index).fragments.map Fragment.line
      ∨ l.index ∉ (b.logical index).fragments.map Fragment.line
        ∧ PassedOver (before ++ (b.lines ++ after)) b.escape (b.logical index) l := by
  rw [map_line_fragments]
  rcases b.joins.mem_or_follows hl with hmem | ⟨hc, front, p, mid, back, hb, hp, hpc, hpm, hmid⟩
  · exact Or.inl (List.mem_map_of_mem hmem)
  · refine Or.inr
      ⟨fun hmem => ?_, hc, before ++ front, p.line, mid, back ++ after, ?_, hpc, hmid, ?_⟩
    · -- a piece on this line would be the first one, but the line of the marker is further up
      obtain ⟨l', hl', hindex⟩ := List.mem_map.mp hmem
      obtain rfl := hn.eq_of_index (b.joins.sublist.subset hl') hl hindex
      obtain ⟨q, hq, rfl⟩ := List.mem_map.mp hl'
      rcases List.mem_cons.mp hq with rfl | hq
      · obtain ⟨rest, hcons⟩ := b.joins.exists_cons
        have hfirst := hn 0 b.first.line (by rw [hcons]; rfl)
        have hlater := hn (front.length + 1 + mid.length) b.first.line (by
          rw [hb, List.getElem?_append_right (by omega),
            show front.length + 1 + mid.length - front.length = mid.length + 1 by omega]
          simp)
        omega
      · rw [b.joins.isComment_eq_false hq] at hc
        cases hc
    · rw [hb]
      simp only [List.append_assoc, List.cons_append]
    · obtain ⟨f, hf, hline, hend⟩ := LogicalLine.exists_mem_fragmentsOf 0 hp
      obtain ⟨-, blanks, -, hcontent⟩ := PhysicalLine.beforeMarker?_eq_some hpm
      refine ⟨f, ?_, hline, ?_⟩
      · rw [logical, LogicalLine.fragments_ofPieces]
        exact hf
      · rw [hpm, hend, hcontent, List.take_left]

/-! ## A row of blocks -/

theorem length_le_flatMap_lines (bs : List Block) :
    bs.length ≤ (bs.flatMap Block.lines).length := by
  induction bs with
  | nil => exact Nat.le_refl 0
  | cons b bs ih =>
    have := List.length_pos_iff.mpr b.lines_ne_nil
    rw [List.flatMap_cons, List.length_append, List.length_cons]
    omega

/-- A line of a row has one fragment, or it is passed over and has none. -/
theorem count_line_fragments {bs : List Block}
    (hn : PhysicalLine.Numbered 0 (bs.flatMap Block.lines)) {n : Nat} {l : PhysicalLine}
    (hl : (bs.flatMap Block.lines)[n]? = some l) :
    ((logicals 0 bs).flatMap fun l => l.fragments.map Fragment.line).count n = 1
      ∨ ((logicals 0 bs).flatMap fun l => l.fragments.map Fragment.line).count n = 0
        ∧ ∃ A b B, bs = A ++ b :: B
          ∧ PassedOver (bs.flatMap Block.lines) b.escape (b.logical A.length) l := by
  have hindex : l.index = n := by
    rw [hn n l hl, Nat.zero_add]
  obtain ⟨hlt, -⟩ := List.getElem?_eq_some_iff.mp hl
  obtain ⟨A, b, B, rfl, hlo, hhi⟩ := exists_split_of_lt hlt
  have hsplit : (A ++ b :: B).flatMap Block.lines
      = A.flatMap Block.lines ++ (b.lines ++ B.flatMap Block.lines) := by
    rw [List.flatMap_append, List.flatMap_cons]
  have hlb : l ∈ b.lines := by
    rw [hsplit, List.getElem?_append_right hlo, List.getElem?_append_left (by omega)] at hl
    exact List.mem_of_getElem? hl
  have hmem_iff : ∀ {A' b' B'}, A ++ b :: B = A' ++ b' :: B' →
      n ∈ (b'.logical A'.length).fragments.map Fragment.line →
      n ∈ (b.logical A.length).fragments.map Fragment.line := by
    intro A' b' B' heq hmem
    obtain ⟨f, hf, hline⟩ := List.mem_map.mp hmem
    obtain ⟨hlo', hhi'⟩ := line_of_mem_fragments (heq ▸ hn) hf
    obtain ⟨rfl, rfl, -⟩ := split_unique heq hlo hhi (by omega) (by omega)
    exact hmem
  rcases mem_or_passedOver (A.flatMap Block.lines) (B.flatMap Block.lines)
    (numbered_of_append hn) hlb A.length with hmem | ⟨hnot, hpassed⟩
  · left
    refine List.nodup_iff_count_eq_one.mp ?_ n ?_
    · refine (sublist_line_fragments 0 _).nodup ?_
      rw [hn.map_index]
      exact List.nodup_range'
    · refine List.mem_flatMap.mpr ⟨b.logical A.length, ?_, hindex ▸ hmem⟩
      rw [logicals_append, Nat.zero_add]
      simp [logicals]
  · right
    refine ⟨List.count_eq_zero.mpr fun hmem => ?_, A, b, B, rfl, hsplit ▸ hpassed⟩
    obtain ⟨l', hl', hmem⟩ := List.mem_flatMap.mp hmem
    obtain ⟨A', b', B', heq, rfl⟩ := exists_of_mem_logicals hl'
    rw [Nat.zero_add] at hmem
    exact hnot (hindex ▸ hmem_iff heq hmem)

/-- A row of blocks that cover the lines of a text accounts for it. -/
theorem accounts_of_row {bs : List Block} (h : PhysicalLine.ofText s = bs.flatMap Block.lines) :
    Accounts s ((bs.map Block.escape).zip (logicals 0 bs)) := by
  have hn : PhysicalLine.Numbered 0 (bs.flatMap Block.lines) := h ▸ PhysicalLine.numbered_ofText s
  have hflat : ((bs.map Block.escape).zip (logicals 0 bs)).flatMap
        (fun x => x.2.fragments.map Fragment.line)
      = (logicals 0 bs).flatMap fun l => l.fragments.map Fragment.line := by
    have hsnd : ((bs.map Block.escape).zip (logicals 0 bs)).map Prod.snd = logicals 0 bs :=
      List.map_snd_zip (by simp)
    conv_rhs => rw [← hsnd, List.flatMap_map]
  have hget := fun i x => congrArg (· = some x) (getElem?_zip_logicals 0 bs i)
  simp only [Nat.zero_add, eq_iff_iff, Option.map_eq_some_iff] at hget
  have hmem : ∀ x ∈ (bs.map Block.escape).zip (logicals 0 bs), ∃ b ∈ bs, ∃ i,
      (b.escape, b.logical i) = x ∧ ∀ l ∈ b.lines, l ∈ PhysicalLine.ofText s := by
    intro x hx
    obtain ⟨i, hi⟩ := List.mem_iff_getElem?.mp hx
    obtain ⟨b, hb, hx⟩ := (hget i x).mp hi
    have hb := List.mem_of_getElem? hb
    exact ⟨b, hb, i, hx, fun l hl => h ▸ List.mem_flatMap.mpr ⟨b, hb, hl⟩⟩
  constructor
  case length_le =>
    rw [h, List.length_zip, List.length_map, length_logicals, Nat.min_self]
    exact length_le_flatMap_lines bs
  case index_eq =>
    intro i x hx
    obtain ⟨b, -, rfl⟩ := (hget i x).mp hx
    rfl
  case sorted =>
    rw [hflat]
    refine List.Pairwise.sublist (sublist_line_fragments 0 bs) ?_
    rw [hn.map_index]
    exact List.pairwise_lt_range'
  case one_or_passed =>
    intro n l hl
    rw [hflat]
    rw [h] at hl ⊢
    refine (count_line_fragments hn hl).imp_right fun ⟨hzero, A, b, B, hbs, hpassed⟩ => ?_
    refine ⟨hzero, (b.escape, b.logical A.length), ?_, hpassed⟩
    exact List.mem_of_getElem? ((hget A.length _).mpr ⟨b, by rw [hbs]; simp, rfl⟩)
  case onLine =>
    intro x hx f hf
    obtain ⟨b, -, i, rfl, hlines⟩ := hmem x hx
    obtain ⟨l, hl, hline, honLine⟩ := onLine_of_mem hf
    have hget := (PhysicalLine.numbered_ofText s).getElem?_of_mem (hlines l hl)
    exact ⟨l, hline ▸ hget.2, honLine⟩
  case logicalStart_eq =>
    intro x hx front f back hsplit
    obtain ⟨b, -, i, rfl, -⟩ := hmem x hx
    simp only [logical, LogicalLine.fragments_ofPieces] at hsplit
    rw [LogicalLine.logicalStart_of_fragmentsOf_eq hsplit, Nat.zero_add]
  case text_eq =>
    intro x hx
    obtain ⟨b, -, i, rfl, hlines⟩ := hmem x hx
    exact text_logical hlines i

end Block

/-! ## Main statement -/

/--
**Joining loses, doubles and moves nothing.**

Whatever the escape text is, and however it is changed after each logical line, the logical lines
account for the text: they are numbered from zero on, their fragments are on the physical lines in
order, each line has one fragment unless it is a comment line that a continuation passes over, and
nothing of a line is left out but a marker of the escape text in force.
-/
theorem accounts_joinedUnder {σ : Type} (escape : σ → List Char) (next : σ → LogicalLine → σ)
    (start : σ) (s : List Char) :
    Accounts s (joinedUnder escape next 0 start (PhysicalLine.ofText s)) := by
  obtain ⟨bs, hlines, hjoined⟩ := joinedUnder_eq_zip escape next 0 start (PhysicalLine.ofText s)
  rw [hjoined]
  exact Block.accounts_of_row hlines

/-- The backslash is in force for the first logical line only, which passes over a comment line. -/
example :
    let lines := PhysicalLine.ofText "a\\\n#c\nb\nc`\nd".toList
    (joinedUnder id (fun _ _ => ['`']) 0 ['\\'] lines).map
        (fun x => (x.2.text, x.2.fragments.map Fragment.line))
      = [(['a', 'b'], [0, 2]), (['c', 'd'], [3, 4])] := by
  decide +kernel

end Dockerfile
