import Dockerfile.Proofs.Line.Relabel

/-!
# The endings of lines

The last line of a text has no ending and every other line has one. Which of the three it is, and so
the offset at which the next line starts, is all in which two texts can differ that have the same
contents of lines. Joining does not look at either.

* `RawLine.ended_ofText` — which lines of a text have an ending
* `map_plain_ofText` — lines with the same contents are the same but for their endings and offsets
-/

namespace Dockerfile

/-! ## Which lines have an ending -/

namespace RawLine

/-- There is a last line, which has no ending, and every other line has one. -/
def Ended : List RawLine → Prop
  | [] => False
  | [l] => l.ending = .none
  | l :: next :: more => l.ending ≠ .none ∧ Ended (next :: more)

theorem Ended.cons {l : RawLine} {ls : List RawLine} (hl : l.ending ≠ .none) (h : Ended ls) :
    Ended (l :: ls) := by
  cases ls with
  | nil => exact h.elim
  | cons next more => exact ⟨hl, h⟩

theorem Ended.prepend {ls : List RawLine} (h : Ended ls) (c : Char) : Ended (prepend c ls) := by
  match ls, h with
  | [_], h => exact h
  | _ :: _ :: _, h => exact h

/-- **The last line of a text has no ending and every other line has one.** -/
theorem ended_ofText (s : List Char) : Ended (ofText s) := by
  fun_induction ofText s with
  | case1 => rfl
  | case2 rest ih => exact ih.cons (by simp)
  | case3 rest _ ih => exact ih.cons (by simp)
  | case4 rest ih => exact ih.cons (by simp)
  | case5 c rest _ _ _ ih => exact ih.prepend c

/-- A line has no line ending inside. -/
theorem not_mem_content {s : List Char} {l : RawLine} (h : l ∈ ofText s) :
    '\r' ∉ l.content ∧ '\n' ∉ l.content := by
  fun_induction ofText s generalizing l with
  | case1 =>
    obtain rfl := List.mem_singleton.mp h
    simp
  | case2 rest ih =>
    rcases List.mem_cons.mp h with rfl | h
    · simp
    · exact ih h
  | case3 rest _ ih =>
    rcases List.mem_cons.mp h with rfl | h
    · simp
    · exact ih h
  | case4 rest ih =>
    rcases List.mem_cons.mp h with rfl | h
    · simp
    · exact ih h
  | case5 c rest _ hcr hlf ih =>
    obtain ⟨first, more, hrest⟩ := List.exists_cons_of_ne_nil (ofText_ne_nil rest)
    rw [hrest] at h ih
    rcases List.mem_cons.mp h with rfl | h
    · obtain ⟨hcr', hlf'⟩ := ih (List.mem_cons_self ..)
      exact ⟨List.not_mem_cons_of_ne_of_not_mem (fun heq => hcr heq.symm) hcr',
        List.not_mem_cons_of_ne_of_not_mem (fun heq => hlf heq.symm) hlf'⟩
    · exact ih (List.mem_cons_of_mem _ h)

/-- The line with a line feed for whatever ending it has. -/
def plain (l : RawLine) : RawLine := { l with ending := if l.ending = .none then .none else .lf }

theorem plain_of_ending {l : RawLine} (h : l.ending ≠ .none) : l.plain = ⟨l.content, .lf⟩ := by
  rw [plain, if_neg h]

theorem plain_of_none {l : RawLine} (h : l.ending = .none) : l.plain = ⟨l.content, .none⟩ := by
  rw [plain, if_pos h]

/-- The contents tell which lines have an ending. -/
theorem Ended.map_plain_eq {ls ls' : List RawLine} (h : Ended ls) (h' : Ended ls')
    (hc : ls'.map content = ls.map content) : ls'.map plain = ls.map plain := by
  induction ls generalizing ls' with
  | nil => exact h.elim
  | cons l ls ih =>
    cases ls' with
    | nil => exact h'.elim
    | cons l' ls' =>
      obtain ⟨hl, hls⟩ := List.cons.inj hc
      cases ls with
      | nil =>
        obtain rfl := List.map_eq_nil_iff.mp hls
        rw [List.map_singleton, List.map_singleton, plain_of_none h, plain_of_none h', hl]
      | cons next more =>
        cases ls' with
        | nil => simp at hls
        | cons next' more' =>
          rw [List.map_cons, ih h.2 h'.2 hls, List.map_cons (l := next :: more),
            plain_of_ending h.1, plain_of_ending h'.1, hl]

end RawLine

/-! ## Lines without their places in the text -/

/-- The line with a line feed for whatever ending it has, and without its offset. -/
def PhysicalLine.plain (l : PhysicalLine) : PhysicalLine :=
  { l.toRawLine.plain with index := l.index, start := 0 }

/-- The fragment without its offset. -/
def Fragment.plain (f : Fragment) : Fragment := { f with offset := 0 }

/-- Which ending a line has, and at which offset it starts, is nothing that joining looks at. -/
def Relabel.plain : Relabel where
  line := PhysicalLine.plain
  fragment := Fragment.plain
  content_line _ := rfl
  ending_line l := by
    show (if l.ending = .none then LineEnding.none else .lf) = .none ↔ _
    split
    next h => simp [h]
    next h => simp [h]
  fragmentOf_line _ _ := rfl

namespace PhysicalLine

theorem map_plain_number {ls ls' : List RawLine} (h : ls'.map RawLine.plain = ls.map RawLine.plain)
    (index start start' : Nat) :
    (number index start' ls').map plain = (number index start ls).map plain := by
  induction ls generalizing ls' index start start' with
  | nil =>
    obtain rfl := List.map_eq_nil_iff.mp h
    rfl
  | cons l ls ih =>
    cases ls' with
    | nil => simp at h
    | cons l' ls' =>
      obtain ⟨hl, hls⟩ := List.cons.inj h
      rw [number, number, List.map_cons, List.map_cons,
        ih hls (index + 1) (start + l.text.length) (start' + l'.text.length)]
      have hplain : PhysicalLine.plain { l' with index := index, start := start' }
          = PhysicalLine.plain { l with index := index, start := start } :=
        congrArg (PhysicalLine.mk · index 0) hl
      rw [hplain]

/-- **Lines with the same contents are the same but for their endings and offsets.** -/
theorem map_plain_ofText {s s' : List Char}
    (h : (RawLine.ofText s').map RawLine.content = (RawLine.ofText s).map RawLine.content) :
    (ofText s').map plain = (ofText s).map plain :=
  map_plain_number ((RawLine.ended_ofText s).map_plain_eq (RawLine.ended_ofText s') h) 0 0 0

end PhysicalLine

end Dockerfile
