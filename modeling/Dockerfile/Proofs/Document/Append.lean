import Dockerfile.Proofs.Document.Escape
import Dockerfile.Proofs.Variable.Below

/-!
# More text behind a document

A document is read from the front. Up to a place where a logical line starts, its entries and all
that is kept about them do not depend on what comes after that place: the escape character is
settled by the first instruction, and what stands further down is not seen from above.

* `Document.exists_later` — the entries in front are the first ones
* `Document.declaredBy_of_reaches`, `Document.resolve_of_reaches`,
  `Document.referencesOn_of_reaches` — what is kept about them stays
-/

namespace Dockerfile

/-! ## Text behind a line feed -/

namespace RawLine

theorem prepend_append (c : Char) {ls : List RawLine} (h : ls ≠ []) (ms : List RawLine) :
    prepend c (ls ++ ms) = prepend c ls ++ ms := by
  cases ls with
  | nil => exact absurd rfl h
  | cons l ls => rfl

/-- **What is behind a line feed does not change the lines in front of it.** -/
theorem exists_front (t : List Char) :
    ∃ front, front ≠ [] ∧ ∀ s, ofText (t ++ '\n' :: s) = front ++ ofText s := by
  fun_induction ofText t with
  | case1 => exact ⟨[⟨[], .lf⟩], by simp, fun s => rfl⟩
  | case2 rest ih =>
    obtain ⟨front, -, hfront⟩ := ih
    refine ⟨⟨[], .crlf⟩ :: front, by simp, fun s => ?_⟩
    rw [List.cons_append, List.cons_append, ofText, hfront, List.cons_append]
  | case3 rest hne ih =>
    cases rest with
    | nil =>
      -- the line feed belongs to the same ending
      exact ⟨[⟨[], .crlf⟩], by simp, fun s => rfl⟩
    | cons c rest =>
      obtain ⟨front, -, hfront⟩ := ih
      refine ⟨⟨[], .cr⟩ :: front, by simp, fun s => ?_⟩
      rw [List.cons_append, List.cons_append, ofText]
      · rw [List.cons_append, ← hfront, List.cons_append]
      · intro rest' heq
        obtain ⟨rfl, -⟩ := List.cons.inj heq
        exact hne rest rfl
  | case4 rest ih =>
    obtain ⟨front, -, hfront⟩ := ih
    refine ⟨⟨[], .lf⟩ :: front, by simp, fun s => ?_⟩
    rw [List.cons_append, ofText, hfront, List.cons_append]
  | case5 c rest _ hcr hlf ih =>
    obtain ⟨front, hne, hfront⟩ := ih
    refine ⟨prepend c front, prepend_ne_nil c front, fun s => ?_⟩
    rw [List.cons_append, ofText, hfront, prepend_append c hne]
    · exact fun _ hc _ => hcr hc
    · exact hcr
    · exact hlf

end RawLine

/-- **Text behind a line feed goes in place of the empty last line.** -/
theorem PhysicalLine.exists_front {t : List Char} (h : t.getLast? = some '\n') :
    ∃ used l, l.content = [] ∧ l.ending = .none ∧ ofText t = used ++ [l]
      ∧ ∀ s, ∃ rest, ofText (t ++ s) = used ++ rest := by
  obtain ⟨t, rfl⟩ := List.getLast?_eq_some_iff.mp h
  obtain ⟨front, -, hfront⟩ := RawLine.exists_front t
  have hlines : ∀ s, ofText (t ++ ['\n'] ++ s) = number 0 0 front
      ++ number front.length (front.flatMap RawLine.text).length (RawLine.ofText s) := by
    intro s
    rw [ofText, List.append_assoc, List.singleton_append, hfront, number_append, Nat.zero_add,
      Nat.zero_add]
  have hlast := hlines []
  rw [List.append_nil] at hlast
  exact ⟨_, _, rfl, rfl, hlast, fun s => ⟨_, hlines s⟩⟩

/-! ## The document in front of a place -/

namespace Document

section Reaches

variable {s : List Char} {used rest : List PhysicalLine} {items : List Entry} {h : Header}
  (hs : PhysicalLine.ofText s = used ++ rest)
  (hr : Reaches (fun h => h.escape.text) Entry.classify 0 .initial used items h)

include hs hr

/-- **The entries in front are the first ones.** The others have higher numbers and stand on lines
further down. -/
theorem exists_later : ∃ later, (ofText s).entries = items ++ later ∧ ∀ e ∈ later,
    items.length ≤ e.line.index ∧ ∀ f ∈ e.line.fragments, used.length ≤ f.line := by
  have hread := congrArg Prod.fst (hr rest)
  rw [← hs] at hread
  refine ⟨_, hread, fun e he => ⟨?_, fun f hf => ?_⟩⟩
  · obtain ⟨i, hi⟩ := List.mem_iff_getElem?.mp he
    have hget : (ofText s).entries[items.length + i]? = some e := by
      have hread : (ofText s).entries = _ := hread
      rw [hread, List.getElem?_append_right (Nat.le_add_right _ _), Nat.add_sub_cancel_left, hi]
    rw [index_of_getElem? hget]
    exact Nat.le_add_right _ _
  · obtain ⟨l, hl, hline⟩ := Entry.exists_line_of_mem he hf
    have hn : PhysicalLine.Numbered 0 (used ++ rest) := hs ▸ PhysicalLine.numbered_ofText s
    have := (hn.right.getElem?_of_mem hl).1
    omega

/-- The instructions in front are the first ones, and the table is made of them and of others that
have higher numbers. -/
theorem exists_instructions : ∃ later, (ofText s).entries.filterMap Entry.instruction?
      = items.filterMap Entry.instruction? ++ later
    ∧ (ofText s).table = .ofInstructions (items.filterMap Entry.instruction? ++ later)
    ∧ ∀ x ∈ later, items.length ≤ x.1 := by
  obtain ⟨later, hentries, hlater⟩ := exists_later hs hr
  have hinstructions : (ofText s).entries.filterMap Entry.instruction?
      = items.filterMap Entry.instruction? ++ later.filterMap Entry.instruction? := by
    rw [hentries, List.filterMap_append]
  refine ⟨_, hinstructions, congrArg VariableTable.ofInstructions hinstructions, ?_⟩
  intro x hx
  obtain ⟨e, he, hx⟩ := List.mem_filterMap.mp hx
  rw [(Entry.of_instruction? hx).1]
  exact (hlater e he).1

/-- The number of an entry in front. -/
theorem index_lt_of_mem {e : Entry} (he : e ∈ items) :
    e.line.index < items.length ∧ (ofText s).entries[e.line.index]? = some e := by
  obtain ⟨later, hentries, -⟩ := exists_later hs hr
  obtain ⟨i, hi⟩ := List.mem_iff_getElem?.mp he
  obtain ⟨hlt, -⟩ := List.getElem?_eq_some_iff.mp hi
  have hget : (ofText s).entries[i]? = some e := by
    rw [hentries, List.getElem?_append_left hlt, hi]
  rw [index_of_getElem? hget]
  exact ⟨hlt, hget⟩

/-- If there is an instruction in front, the escape character is settled. -/
theorem escape_of_reaches {e : Entry} (he : e ∈ items) {i : Instruction}
    (hi : e.node = .instruction i) : (ofText s).escape = h.escape := by
  obtain ⟨later, hentries, -⟩ := exists_later hs hr
  obtain ⟨hlt, hget⟩ := index_lt_of_mem hs hr he
  rw [← escapeAt_of_endsTop hget (endsTop_of_instruction hi) (Nat.le_of_lt hlt), escapeAt, headerAt,
    hentries, List.take_left, ← hr.eq_behind]

/-- **The references in front are the first ones.** -/
theorem exists_references : ∃ later, (ofText s).references
    = (ofEntries used items h).references ++ later ∧ ∀ x ∈ later, items.length ≤ x.1 := by
  obtain ⟨later, hinstructions, htable, hlater⟩ := exists_instructions hs hr
  rw [references_eq, hinstructions, List.map_append]
  refine ⟨_, congrArg (· ++ _) (List.map_congr_left fun x hx => ?_), fun x hx => ?_⟩
  · obtain ⟨e, he, hx⟩ := List.mem_filterMap.mp hx
    obtain ⟨hindex, hnode⟩ := Entry.of_instruction? hx
    have hlt := (index_lt_of_mem hs hr he).1
    rw [escape_of_reaches hs hr he hnode, htable, VariableTable.references_append fun y hy => ?_]
    rw [hindex]
    exact Nat.lt_of_lt_of_le hlt (hlater y hy)
  · obtain ⟨y, hy, rfl⟩ := List.mem_map.mp hx
    exact hlater y hy

/-! ## What is kept about the entries in front -/

section Line

variable {n : Nat} (hn : n < items.length)

include hn

theorem stageOf_of_reaches :
    (ofText s).table.stageOf n = (ofEntries used items h).table.stageOf n := by
  obtain ⟨later, -, htable, hlater⟩ := exists_instructions hs hr
  rw [htable]
  exact VariableTable.stageOf_append fun x hx => Nat.lt_of_lt_of_le hn (hlater x hx)

theorem declaredBy_of_reaches :
    (ofText s).table.declaredBy n = (ofEntries used items h).table.declaredBy n := by
  obtain ⟨later, -, htable, hlater⟩ := exists_instructions hs hr
  rw [htable]
  exact VariableTable.declaredBy_append fun x hx => Nat.lt_of_lt_of_le hn (hlater x hx)

theorem resolve_of_reaches (name : List Char) (offset? : Option Int) :
    (ofText s).table.resolve name n offset?
      = (ofEntries used items h).table.resolve name n offset? := by
  obtain ⟨later, -, htable, hlater⟩ := exists_instructions hs hr
  rw [htable]
  exact VariableTable.resolve_append (fun x hx => Nat.lt_of_lt_of_le hn (hlater x hx)) name offset?

theorem referencesOn_of_reaches :
    (ofText s).referencesOn n = (ofEntries used items h).referencesOn n := by
  obtain ⟨later, hrefs, hlater⟩ := exists_references hs hr
  have hnone : later.lookup n = none := by
    rw [List.lookup_eq_none_iff]
    intro x hx
    have := hlater x hx
    simp only [bne_iff_ne]
    omega
  rw [referencesOn, hrefs, List.lookup_append, hnone, Option.or_none]
  rfl

end Line

end Reaches

/-! ## The document in front of an empty last line -/

/-- The last physical line is a logical line of its own: no continuation is open in front of it. -/
def EndsFresh (d : Document) : Prop :=
  ∃ e ∈ d.entries, ∃ n, e.line.fragments.map Fragment.line = [n] ∧ n + 1 = d.lines.length

section EndsFresh

variable {t : List Char} {used : List PhysicalLine} {l : PhysicalLine}
  (ht : PhysicalLine.ofText t = used ++ [l])

include ht

theorem EndsFresh.exists_reaches (hfresh : (ofText t).EndsFresh) : ∃ items h,
    Reaches (fun h => h.escape.text) Entry.classify 0 .initial used items h := by
  obtain ⟨e, he, n, hlines, hn⟩ := hfresh
  obtain ⟨used', l', rest, items, h, hsplit, hreach, hitem⟩ := Document.exists_reaches he
  have hn : n = used.length := by
    have hlength : (ofText t).lines.length = used.length + 1 := by
      show (PhysicalLine.ofText t).length = _
      rw [ht, List.length_append, List.length_singleton]
    omega
  -- the entry starts on the last line, so what is in front of it is in front of that line
  have hfirst : e.line.firstLine = n := (List.cons.inj hlines).1
  have hindex : l'.index = used'.length := by
    rw [PhysicalLine.numbered_ofText t used'.length l' (by rw [hsplit]; simp), Nat.zero_add]
  have hlength : used.length = used'.length := by
    rw [← hn, ← hfirst, ← hindex, ← join_fst_line h.escape.text l' rest, hitem]
    rfl
  rw [ht] at hsplit
  obtain ⟨rfl, -⟩ := List.append_inj hsplit hlength
  exact ⟨items, h, hreach⟩

/-- An empty last line makes one blank entry. -/
theorem dropLast_entries {items : List Entry} {h : Header}
    (hr : Reaches (fun h => h.escape.text) Entry.classify 0 .initial used items h)
    (hcontent : l.content = []) (hending : l.ending = .none) :
    (ofText t).entries.dropLast = items := by
  have hjoin : join h.escape.text l [] = (l.whole, [], []) := by
    refine join_closed ?_ (PhysicalLine.beforeMarker?_eq_none_iff.mpr (Or.inl hending)) []
    rw [PhysicalLine.isComment, hcontent]
    rfl
  have hread : (ofText t).entries = items
      ++ (foldLines (fun h => h.escape.text) Entry.classify (0 + items.length) h [l]).1 := by
    have hread := congrArg Prod.fst (hr [l])
    rwa [← ht] at hread
  rw [hread, foldLines]
  simp only [hjoin, foldLines]
  rw [List.dropLast_concat]

end EndsFresh

end Document

end Dockerfile
