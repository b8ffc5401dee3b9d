import Mathlib.Data.List.Chain
import Dockerfile.Proofs.Line.Endings
import Dockerfile.Proofs.Line.Numbering

/-!
# Lines and texts, one to one

The lines of a text put together again are the text. The other way round, lines that are put
together are not always cut into the same lines again: an ending inside a content cuts the line
in two, and a carriage return takes a line feed behind it into its ending. Where nothing like that
can happen, the lines come back, so a text is cut into lines in this one way only.

* `RawLine.Canonical` — lines as a text can have them
* `RawLine.canonical_ofText` — the lines of a text are
* `RawLine.Canonical.ofText_flatMap_text` — such lines, put together, are cut at the same places
* `PhysicalLine.ofText_one_to_one` — both, with the numbers and the offsets of the lines
-/

namespace Dockerfile

namespace RawLine

/-! ## Lines of a text -/

/-- Lines as a text can have them. -/
structure Canonical (ls : List RawLine) : Prop where
  /-- There is no ending inside a content. -/
  plain : ∀ l ∈ ls, '\r' ∉ l.content ∧ '\n' ∉ l.content
  /-- The last line, and only this one, has no ending. -/
  ended : Ended ls
  /-- Behind a line that ends in a carriage return, no line starts with a line feed, be it that of
  its ending. -/
  apart : ls.IsChain fun a b => a.ending = .cr → b.text.head? ≠ some '\n'

/-- A line that has an ending is not empty. -/
theorem text_ne_nil {l : RawLine} (h : l.ending ≠ .none) : l.text ≠ [] := by
  rw [text, ne_eq, List.append_eq_nil_iff, not_and_or]
  right
  cases hending : l.ending with
  | none => exact absurd hending h
  | lf | cr | crlf => exact List.cons_ne_nil _ _

/-- The lines put together start as the first line does, even if that is empty: then it is the
last one, too. -/
theorem Ended.head?_flatMap_text {l : RawLine} {more : List RawLine} (h : Ended (l :: more)) :
    ((l :: more).flatMap text).head? = l.text.head? := by
  cases more with
  | nil => simp
  | cons next more =>
    obtain ⟨c, tail, htext⟩ := List.exists_cons_of_ne_nil (text_ne_nil h.1)
    rw [List.flatMap_cons, htext]
    rfl

/-- If a text does not start with a line feed, neither does its first line. -/
theorem head?_text_of_head?_ofText {s : List Char} (hs : s.head? ≠ some '\n') :
    ∀ l ∈ (ofText s).head?, l.text.head? ≠ some '\n' := by
  intro l hl
  obtain ⟨more, hlines⟩ := List.head?_eq_some_iff.mp hl
  have hended := ended_ofText s
  have htext := flatMap_text_ofText s
  rw [hlines] at hended htext
  rw [← hended.head?_flatMap_text, htext]
  exact hs

theorem apart_ofText (s : List Char) :
    (ofText s).IsChain fun a b => a.ending = .cr → b.text.head? ≠ some '\n' := by
  fun_induction ofText s with
  | case1 => exact List.isChain_singleton _
  | case2 rest ih => exact List.isChain_cons.mpr ⟨fun _ _ hcr => LineEnding.noConfusion hcr, ih⟩
  | case3 rest hrest ih =>
    -- a line feed behind the carriage return would belong to its ending
    have hs : rest.head? ≠ some '\n' := by
      intro hlf
      obtain ⟨tail, rfl⟩ := List.head?_eq_some_iff.mp hlf
      exact hrest tail rfl
    exact List.isChain_cons.mpr ⟨fun b hb _ => head?_text_of_head?_ofText hs b hb, ih⟩
  | case4 rest ih => exact List.isChain_cons.mpr ⟨fun _ _ hcr => LineEnding.noConfusion hcr, ih⟩
  | case5 c rest _ _ _ ih =>
    -- a character in front of the first line changes none of the endings
    obtain ⟨l, more, hlines⟩ := List.exists_cons_of_ne_nil (ofText_ne_nil rest)
    rw [hlines] at ih ⊢
    exact List.isChain_cons.mpr (List.isChain_cons.mp ih)

/-- **The lines of a text are canonical.** -/
theorem canonical_ofText (s : List Char) : Canonical (ofText s) where
  plain _ hl := not_mem_content hl
  ended := ended_ofText s
  apart := apart_ofText s

/-! ## Texts of lines -/

/-- A text that starts with an ending starts with an empty line. -/
theorem ofText_ending_append {e : LineEnding} (he : e ≠ .none) {s : List Char}
    (hs : e = .cr → s.head? ≠ some '\n') : ofText (e.text ++ s) = ⟨[], e⟩ :: ofText s := by
  cases e with
  | lf => rfl
  | crlf => rfl
  | none => exact absurd rfl he
  | cr =>
    have hrest : ∀ tail, s ≠ '\n' :: tail := by
      rintro tail rfl
      exact hs rfl rfl
    show ofText ('\r' :: s) = _
    rw [ofText]
    exact hrest

/-- **Canonical lines put together are cut into the same lines again.** -/
theorem Canonical.ofText_flatMap_text {ls : List RawLine} (h : Canonical ls) :
    ofText (ls.flatMap text) = ls := by
  induction ls with
  | nil => exact h.ended.elim
  | cons l ls ih =>
    obtain ⟨hl, hls⟩ := List.forall_mem_cons.mp h.plain
    cases ls with
    | nil =>
      have hending : l.ending = .none := h.ended
      have hline : ofText (l.content ++ []) = [⟨l.content ++ [], .none⟩] :=
        ofText_append (l := ⟨[], .none⟩) hl.1 hl.2 rfl
      rw [List.append_nil] at hline
      rw [List.flatMap_singleton, text, hending, LineEnding.text, List.append_nil, hline, ← hending]
    | cons next more =>
      have hended : l.ending ≠ .none ∧ Ended (next :: more) := h.ended
      obtain ⟨hapart, hmore⟩ := List.isChain_cons_cons.mp h.apart
      have hlines := ih ⟨hls, hended.2, hmore⟩
      have hnext : ofText (l.ending.text ++ (next :: more).flatMap text)
          = ⟨[], l.ending⟩ :: next :: more := by
        rw [ofText_ending_append hended.1, hlines]
        rw [hended.2.head?_flatMap_text]
        exact hapart
      rw [List.flatMap_cons, text, List.append_assoc, ofText_append hl.1 hl.2 hnext,
        List.append_nil]

end RawLine

namespace PhysicalLine

/-! ## Offsets -/

/-- Each line starts behind the ending of the one in front of it. -/
theorem isChain_number (index start : Nat) (ls : List RawLine) :
    (number index start ls).IsChain fun a b => b.start = a.stop + a.ending.text.length := by
  induction ls generalizing index start with
  | nil => exact List.isChain_nil
  | cons l ls ih =>
    refine List.isChain_cons.mpr ⟨fun b hb => ?_, ih _ _⟩
    cases ls with
    | nil => cases hb
    | cons next more =>
      obtain rfl := Option.some.inj hb
      show start + l.text.length = start + l.content.length + l.ending.text.length
      rw [RawLine.text, List.length_append, Nat.add_assoc]

/-- The part of the text between the offsets of a line is its content. -/
theorem extract_eq_content {s : List Char} {l : PhysicalLine} (hl : l ∈ ofText s) :
    s.extract l.start l.stop = l.content := by
  have hlength : l.stop - l.start = l.content.length := Nat.add_sub_cancel_left ..
  rw [List.extract_eq_take_drop, hlength, take_drop_text hl (Nat.le_refl _), List.take_length]

/-- The parts of the text that the lines stand for, with their endings, are the text. -/
theorem flatMap_extract_ofText (s : List Char) :
    (ofText s).flatMap (fun l => s.extract l.start l.stop ++ l.ending.text) = s := by
  calc (ofText s).flatMap (fun l => s.extract l.start l.stop ++ l.ending.text)
      = (ofText s).flatMap (fun l => l.toRawLine.text) := by
        refine List.flatMap_congr fun l hl => ?_
        rw [extract_eq_content hl, RawLine.text]
    _ = ((ofText s).map (·.toRawLine)).flatMap RawLine.text := (List.flatMap_map ..).symm
    _ = s := by rw [ofText, map_toRawLine_number, RawLine.flatMap_text_ofText]

/-! ## Main statement -/

/--
**Texts and their lines are one to one.**

* The parts of a text that its lines stand for, each with its ending, are the text when they are put
  together.
* The lines are numbered from zero, the first one starts at the start of the text, and each one
  starts behind the ending of the one in front of it.
* No content holds a line ending, the last line and only that one has no ending, and no line feed
  follows a line that ends in a carriage return.
* Any lines of this kind are the lines of the text that they are put together to.
-/
theorem ofText_one_to_one :
    (∀ s : List Char,
      let ls : List PhysicalLine := ofText s
      ls.flatMap (fun l => s.extract l.start l.stop ++ l.ending.text) = s ∧
      (∀ (k : Nat) (l : PhysicalLine), ls[k]? = some l →
        l.index = k ∧ s.extract l.start l.stop = l.content) ∧
      ls.head?.map (·.start) = some 0 ∧
      ls.IsChain (fun a b => b.start = a.stop + a.ending.text.length) ∧
      RawLine.Canonical (ls.map (·.toRawLine))) ∧
    ∀ rs : List RawLine, RawLine.Canonical rs →
      (ofText (rs.flatMap RawLine.text)).map (·.toRawLine) = rs := by
  refine ⟨fun s => ?_, fun rs hrs => ?_⟩
  · refine ⟨flatMap_extract_ofText s, fun k l hl => ⟨?_, ?_⟩, ?_, isChain_number 0 0 _, ?_⟩
    · rw [numbered_ofText s k l hl, Nat.zero_add]
    · exact extract_eq_content (List.mem_of_getElem? hl)
    · obtain ⟨l, more, hlines⟩ := List.exists_cons_of_ne_nil (RawLine.ofText_ne_nil s)
      rw [ofText, hlines]
      rfl
    · rw [ofText, map_toRawLine_number]
      exact RawLine.canonical_ofText s
  · rw [ofText, map_toRawLine_number, hrs.ofText_flatMap_text]

/-- A carriage return behind a line feed is an ending of its own, and so is one in front of a line
that does not start with a line feed. -/
theorem ofText_one_to_one_each_ending :
    let rs : List RawLine := [⟨['a'], .lf⟩, ⟨[], .cr⟩, ⟨['b'], .crlf⟩, ⟨[], .none⟩]
    RawLine.Canonical rs ∧ rs.flatMap RawLine.text = "a\n\rb\r\n".toList
      ∧ (ofText (rs.flatMap RawLine.text)).map (·.toRawLine) = rs := by
  intro rs
  have hrs : RawLine.Canonical rs :=
    ⟨by decide, ⟨by decide, by decide, by decide, rfl⟩, by decide⟩
  exact ⟨hrs, rfl, ofText_one_to_one.2 rs hrs⟩

end PhysicalLine

end Dockerfile
