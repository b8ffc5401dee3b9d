import Dockerfile.Line.Physical

/-!
# Numbers and offsets of physical lines

`PhysicalLine.number` counts lines and adds up their lengths. The number of a line is its place in
the list, and its offset is where its content stands in the text.
-/

namespace Dockerfile.PhysicalLine

/-- The lines carry consecutive numbers from `n` on. -/
def Numbered (n : Nat) (ls : List PhysicalLine) : Prop :=
  ∀ i l, ls[i]? = some l → l.index = n + i

theorem Numbered.left {n : Nat} {ls ms : List PhysicalLine} (h : Numbered n (ls ++ ms)) :
    Numbered n ls := by
  intro i l hl
  obtain ⟨hi, -⟩ := List.getElem?_eq_some_iff.mp hl
  exact h i l (by rw [List.getElem?_append_left hi, hl])

theorem Numbered.right {n : Nat} {ls ms : List PhysicalLine} (h : Numbered n (ls ++ ms)) :
    Numbered (n + ls.length) ms := by
  intro i l hl
  have hi : (ls ++ ms)[ls.length + i]? = some l := by
    rw [List.getElem?_append_right (by omega), Nat.add_sub_cancel_left, hl]
  rw [h _ l hi]
  omega

/-- Lines with consecutive numbers are told apart by their numbers. -/
theorem Numbered.getElem?_of_mem {n : Nat} {ls : List PhysicalLine} (h : Numbered n ls)
    {l : PhysicalLine} (hl : l ∈ ls) : n ≤ l.index ∧ ls[l.index - n]? = some l := by
  obtain ⟨i, hi⟩ := List.mem_iff_getElem?.mp hl
  rw [h i l hi]
  exact ⟨by omega, by rw [Nat.add_sub_cancel_left, hi]⟩

theorem Numbered.eq_of_index {n : Nat} {ls : List PhysicalLine} (h : Numbered n ls)
    {l l' : PhysicalLine} (hl : l ∈ ls) (hl' : l' ∈ ls) (hi : l.index = l'.index) : l = l' := by
  have hget := (h.getElem?_of_mem hl).2
  rw [hi, (h.getElem?_of_mem hl').2] at hget
  exact (Option.some.inj hget).symm

theorem Numbered.index_lt {n : Nat} {ls : List PhysicalLine} (h : Numbered n ls)
    {l : PhysicalLine} (hl : l ∈ ls) : l.index < n + ls.length := by
  obtain ⟨hle, hget⟩ := h.getElem?_of_mem hl
  obtain ⟨hlt, -⟩ := List.getElem?_eq_some_iff.mp hget
  omega

/-- Lines with consecutive numbers carry the numbers of a range. -/
theorem Numbered.map_index {n : Nat} {ls : List PhysicalLine} (h : Numbered n ls) :
    (ls.map fun l => l.index) = List.range' n ls.length := by
  refine List.ext_getElem? fun i => ?_
  rw [List.getElem?_map]
  by_cases hi : i < ls.length
  · rw [List.getElem?_range' hi, List.getElem?_eq_getElem hi, Option.map_some,
      h i _ (List.getElem?_eq_getElem hi), Nat.one_mul]
  · rw [List.getElem?_eq_none (by omega), List.getElem?_eq_none (by simp; omega)]
    rfl

/-! ## Counting -/

theorem number_append (index start : Nat) (ls ms : List RawLine) :
    number index start (ls ++ ms)
      = number index start ls
        ++ number (index + ls.length) (start + (ls.flatMap RawLine.text).length) ms := by
  induction ls generalizing index start with
  | nil => simp [number]
  | cons l ls ih =>
    simp only [List.cons_append, number, ih, List.length_cons, List.flatMap_cons,
      List.length_append]
    congr 3 <;> omega

theorem numbered_number (index start : Nat) (ls : List RawLine) :
    Numbered index (number index start ls) := by
  induction ls generalizing index start with
  | nil => intro i l hl; simp [number] at hl
  | cons r ls ih =>
    intro i l hl
    cases i with
    | zero => simp only [number, List.getElem?_cons_zero, Option.some.injEq] at hl; simp [← hl]
    | succ i =>
      rw [number, List.getElem?_cons_succ] at hl
      rw [ih _ _ i l hl]
      omega

theorem numbered_ofText (s : List Char) : Numbered 0 (ofText s) := numbered_number 0 0 _

/-- The physical lines of a text around one of them. -/
theorem ofText_eq {s : List Char} {pre post : List RawLine} {l : RawLine}
    (hs : RawLine.ofText s = pre ++ l :: post) :
    ofText s = number 0 0 pre
      ++ { l with index := pre.length, start := (pre.flatMap RawLine.text).length }
      :: number (pre.length + 1) ((pre.flatMap RawLine.text).length + l.text.length) post := by
  rw [ofText, hs, number_append, Nat.zero_add, Nat.zero_add]
  rfl

/-! ## Contents in the text -/

/-- The content of a line stands at its offset, whatever text comes before the first line. -/
theorem getElem?_append_flatMap_text (front : List Char) {index : Nat} {ls : List RawLine}
    {l : PhysicalLine} (hl : l ∈ number index front.length ls) {column : Nat}
    (hc : column < l.content.length) :
    (front ++ ls.flatMap RawLine.text)[l.start + column]? = l.content[column]? := by
  induction ls generalizing front index with
  | nil => simp [number] at hl
  | cons r ls ih =>
    rcases List.mem_cons.mp hl with rfl | hl
    · show (front ++ (r.content ++ r.ending.text ++ _))[front.length + column]? = r.content[column]?
      rw [List.getElem?_append_right (by omega), Nat.add_sub_cancel_left, List.append_assoc,
        List.getElem?_append_left hc]
    · rw [← List.length_append] at hl
      rw [List.flatMap_cons, ← List.append_assoc]
      exact ih _ hl

/-- **The content of a line is the part of the text at its offset.** -/
theorem getElem?_text {s : List Char} {l : PhysicalLine} (hl : l ∈ ofText s) {column : Nat}
    (hc : column < l.content.length) : s[l.start + column]? = l.content[column]? := by
  have h := getElem?_append_flatMap_text [] hl hc
  rwa [List.nil_append, RawLine.flatMap_text_ofText] at h

theorem take_drop_text {s : List Char} {l : PhysicalLine} (hl : l ∈ ofText s) {n : Nat}
    (hn : n ≤ l.content.length) : (s.drop l.start).take n = l.content.take n := by
  refine List.ext_getElem? fun i => ?_
  rw [List.getElem?_take, List.getElem?_take, List.getElem?_drop]
  split
  next hi => exact getElem?_text hl (by omega)
  next => rfl

/-- Each line starts behind the contents of those in front of it. -/
theorem sorted_number (index start : Nat) (ls : List RawLine) :
    (number index start ls).Pairwise (fun a b => a.stop ≤ b.start)
      ∧ ∀ l ∈ number index start ls, start ≤ l.start := by
  induction ls generalizing index start with
  | nil => exact ⟨List.Pairwise.nil, fun _ hl => absurd hl List.not_mem_nil⟩
  | cons r ls ih =>
    obtain ⟨hsorted, hle⟩ := ih (index + 1) (start + r.text.length)
    refine ⟨List.pairwise_cons.mpr ⟨fun l hl => ?_, hsorted⟩,
      List.forall_mem_cons.mpr ⟨Nat.le_refl _, fun l hl => ?_⟩⟩
    · have := hle l hl
      simp only [RawLine.text, List.length_append] at this
      show start + r.content.length ≤ l.start
      omega
    · have := hle l hl
      omega

/-- **An offset of the text lies in the content of one line at most.** -/
theorem eq_of_start_add_eq {s : List Char} {l l' : PhysicalLine} (hl : l ∈ ofText s)
    (hl' : l' ∈ ofText s) {column column' : Nat} (hc : column < l.content.length)
    (hc' : column' < l'.content.length) (h : l.start + column = l'.start + column') : l = l' := by
  obtain ⟨i, hi⟩ := List.mem_iff_getElem?.mp hl
  obtain ⟨j, hj⟩ := List.mem_iff_getElem?.mp hl'
  obtain ⟨hilt, rfl⟩ := List.getElem?_eq_some_iff.mp hi
  obtain ⟨hjlt, rfl⟩ := List.getElem?_eq_some_iff.mp hj
  have hsorted := List.pairwise_iff_getElem.mp (sorted_number 0 0 (RawLine.ofText s)).1
  rcases Nat.lt_trichotomy i j with hij | rfl | hij
  · have := hsorted i j hilt hjlt hij
    simp only [stop, ofText] at this hc h
    omega
  · rfl
  · have := hsorted j i hjlt hilt hij
    simp only [stop, ofText] at this hc' h
    omega

end Dockerfile.PhysicalLine
