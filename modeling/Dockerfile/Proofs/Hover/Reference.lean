import Dockerfile.Proofs.Document.PositionMap
import Dockerfile.Proofs.Document.References
import Dockerfile.Proofs.Hover.Priority

/-!
# What a reference shows

The end of a span belongs to it, so that the place right behind a reference still finds it. Where
two references touch, the offset between them is the end of the one and the start of the other, and
the first one is shown. So a reference shows its own value at each of its characters, the dollar
sign apart if another reference ends right in front of it.

* `hover_inside_reference` — what is shown at the characters of a reference
-/

namespace Dockerfile.Document

variable {s : List Char} {e : Entry} {i : Instruction}

/-- Every offset of a logical text has a place, and the place is located on it. -/
theorem exists_locate_positionOf (he : e ∈ (ofText s).entries) {offset : Nat}
    (hle : offset ≤ e.line.text.length) : ∃ line column : Nat,
      e.line.positionOf offset = some (line, column)
        ∧ (ofText s).locate ⟨line, column⟩ = some (e, offset) := by
  obtain ⟨used, l, rest, items, h, -, -, heq⟩ := exists_reaches he
  have hline := congrArg Entry.line heq
  rw [hline] at hle
  obtain ⟨f, hf, c, hc, rfl, hpos⟩ := LogicalLine.exists_positionOf hle
  refine ⟨f.line, c, by rw [hline]; exact hpos, ?_⟩
  exact locate_eq_some_iff.mpr ⟨he, f, by rw [hline]; exact hf, c, rfl, hc, rfl⟩

section Spans

variable (he : e ∈ (ofText s).entries) (hi : e.node = .instruction i)

include he hi

/-- Away from the words of an instruction and from the names that it declares, a hover is the value
of the first reference. -/
theorem hover_of_find?_reference {p : Position} {offset : Nat}
    (hloc : (ofText s).locate p = some (e, offset))
    (hword : ∀ c, c = i.toCommand ∨ i.trigger = some c →
      ¬(c.wordStart ≤ offset ∧ offset ≤ c.wordEnd))
    (hname : i.known? = some .arg → ∀ x ∈ (ofText s).table.declaredBy e.line.index,
      ¬(x.start ≤ offset ∧ offset ≤ x.stop)) {r : ResolvedReference}
    (hr : ((ofText s).referencesOn e.line.index).find? (·.contains offset) = some r)
    (provider : Provider) : Dockerfile.hover provider s p = r.value := by
  have hnone : i.commandAt offset = none := by
    refine Option.eq_none_iff_forall_ne_some.mpr fun c hc => ?_
    obtain ⟨hcommand, hspan⟩ :=
      (Instruction.commandAt_eq_some_iff (parse_of_instruction he hi)).mp hc
    exact hword c hcommand hspan
  rw [hover_of_references hloc hi hnone, referencesIn, ← referencesOn_eq he hi, hr,
    Option.bind_some]
  intro harg
  rw [declarationsOf, ← declaredBy_eq he hi, List.find?_eq_none]
  intro x hx hon
  exact hname harg x hx (Declaration.onName_iff.mp hon)

end Spans

/--
**A reference shows its own value at each of its characters, except at its first one if another
reference ends there.**

Take an offset inside a reference that is neither on a word of the instruction nor on a name that it
declares. The offset has a place, and that place shows the value of the reference unless another
reference with another value ends at the offset. That other one is shown instead; it can only touch
the first character.
-/
theorem hover_inside_reference (he : e ∈ (ofText s).entries) (hi : e.node = .instruction i)
    {r : ResolvedReference} (hr : r ∈ (ofText s).referencesOn e.line.index) {offset : Nat}
    (ho : r.start ≤ offset ∧ offset < r.stop)
    (hword : ∀ c, c = i.toCommand ∨ i.trigger = some c →
      ¬(c.wordStart ≤ offset ∧ offset ≤ c.wordEnd))
    (hname : i.known? = some .arg → ∀ x ∈ (ofText s).table.declaredBy e.line.index,
      ¬(x.start ≤ offset ∧ offset ≤ x.stop)) (provider : Provider) :
    ∃ line column : Nat, e.line.positionOf offset = some (line, column) ∧
      (Dockerfile.hover provider s ⟨line, column⟩ = r.value ↔
        ∀ q ∈ (ofText s).referencesOn e.line.index, q.stop = offset → q.value = r.value) ∧
      ∀ q ∈ (ofText s).referencesOn e.line.index, q.stop = offset →
        offset = r.start ∧ Dockerfile.hover provider s ⟨line, column⟩ = q.value := by
  have hspan := fun q hq => span_of_mem_referencesOn (r := q) he hi hq
  have hsorted := sorted_referencesOn he hi
  have hle : offset ≤ e.line.text.length := Nat.le_trans (Nat.le_of_lt ho.2) (hspan r hr).2
  obtain ⟨line, column, hpos, hloc⟩ := exists_locate_positionOf he hle
  have hshown := fun q hq => hover_of_find?_reference he hi hloc hword hname (r := q) hq provider
  have hother : ∀ q ∈ (ofText s).referencesOn e.line.index, q.stop = offset →
      offset = r.start ∧ Dockerfile.hover provider s ⟨line, column⟩ = q.value := by
    rintro q hq rfl
    exact ⟨start_of_stop hsorted (fun q hq => (hspan q hq).1) hq hr ho,
      hshown q (find?_contains_of_stop hsorted (fun q hq => (hspan q hq).1) hq)⟩
  refine ⟨line, column, hpos, ⟨fun heq q hq hstop => ?_, fun hsame => ?_⟩, hother⟩
  · rw [← heq, (hother q hq hstop).2]
  · by_cases htouch : ∃ q ∈ (ofText s).referencesOn e.line.index, q.stop = offset
    · obtain ⟨q, hq, hstop⟩ := htouch
      rw [(hother q hq hstop).2, hsame q hq hstop]
    · exact hshown r (find?_contains_of_mem hsorted hr ho fun q hq hstop => htouch ⟨q, hq, hstop⟩)

/-- `RUN $a$b` behind `ARG a=1` and `ARG b=2`: the name of the second reference shows its value. -/
theorem hover_inside_reference_side_by_side :
    let s := "ARG a=1\nARG b=2\nRUN $a$b".toList
    ∃ e ∈ (ofText s).entries, ∃ r ∈ (ofText s).referencesOn e.line.index,
      (r.start ≤ 7 ∧ 7 < r.stop) ∧ e.line.positionOf (7 : Nat) = some (2, 7)
        ∧ Dockerfile.hover (fun _ => none) s ⟨2, 7⟩ = some ['2'] := by
  intro s
  let i : Instruction := ⟨⟨"RUN".toList, 0, "$a$b".toList, 4⟩, none⟩
  let e : Entry := ⟨⟨2, "RUN $a$b".toList, ⟨2, 0, 8, 16, 0⟩, []⟩, .instruction i⟩
  let r : ResolvedReference := ⟨⟨['b'], 6, 8, 2⟩, some ⟨['b'], some ['2'], 4, 7, 1, 0, .arg⟩⟩
  have he : e ∈ (ofText s).entries := by decide +kernel
  have hr : r ∈ (ofText s).referencesOn e.line.index := by decide +kernel
  have ho : r.start ≤ 7 ∧ 7 < r.stop := by decide
  have hends : ∀ q ∈ (ofText s).referencesOn e.line.index, q.stop ≠ 7 := by decide +kernel
  have hword : ∀ c, c = i.toCommand ∨ i.trigger = some c → ¬(c.wordStart ≤ 7 ∧ 7 ≤ c.wordEnd) := by
    rintro c (rfl | ht)
    · decide
    · cases ht
  have harg : i.known? ≠ some .arg := by decide +kernel
  obtain ⟨line, column, hpos, hown, -⟩ :=
    hover_inside_reference he rfl hr ho hword (fun h => absurd h harg) fun _ => none
  have hplace : e.line.positionOf (7 : Nat) = some (2, 7) := by decide +kernel
  rw [hplace] at hpos
  obtain ⟨rfl, rfl⟩ := Prod.mk.inj (Option.some.inj hpos)
  exact ⟨e, he, r, hr, ho, hplace, hown.mpr fun q hq hstop => absurd hstop (hends q hq)⟩

/-- At the dollar sign of the second one, `RUN $a$b` shows the value of the first reference. -/
theorem hover_between_references :
    let s := "ARG a=1\nARG b=2\nRUN $a$b".toList
    ∃ e ∈ (ofText s).entries, ∃ r ∈ (ofText s).referencesOn e.line.index,
      (r.start ≤ 6 ∧ 6 < r.stop) ∧ r.value = some ['2']
        ∧ (∃ i, e.node = .instruction i ∧ i.known? = some .run ∧ i.trigger = none ∧ i.wordEnd < 6)
        ∧ e.line.positionOf (6 : Nat) = some (2, 6)
        ∧ Dockerfile.hover (fun _ => none) s ⟨2, 6⟩ = some ['1'] := by
  intro s
  let i : Instruction := ⟨⟨"RUN".toList, 0, "$a$b".toList, 4⟩, none⟩
  let e : Entry := ⟨⟨2, "RUN $a$b".toList, ⟨2, 0, 8, 16, 0⟩, []⟩, .instruction i⟩
  let r : ResolvedReference := ⟨⟨['b'], 6, 8, 2⟩, some ⟨['b'], some ['2'], 4, 7, 1, 0, .arg⟩⟩
  exact ⟨e, by decide +kernel, r, by decide +kernel, by decide, rfl,
    ⟨i, rfl, by decide +kernel, rfl, by decide⟩, by decide +kernel, by decide +kernel⟩

end Dockerfile.Document
