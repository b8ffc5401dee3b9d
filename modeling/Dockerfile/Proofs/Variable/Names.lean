import Dockerfile.Proofs.Syntax.Declarations
import Dockerfile.Variable.Table

/-!
# Where names and references stand

Two names declared on one line never touch: behind each item there is a blank or the end of the
text. So a place is on one name at most, although the end of a name belongs to it. References never
stand in front of the arguments that they are looked for in.

* `Declaration.exists_of_mem_ofCommand` — a declared name stands in the arguments that declare it
* `Declaration.sorted_ofCommand` — each declared name ends in front of the next one
* `Declaration.extent_of_mem_ofCommand` — the text of a declaration reaches from its name on and not
  beyond the arguments
* `Declaration.find?_onName` — so the name at a place is found whichever comes first
* `Reference.le_start_of_mem_find` — references start behind the start of the text
-/

namespace Dockerfile

/-! ## Items -/

namespace Item

/-- Behind the first item, a blank stands in front of every item. -/
theorem gap_ne_nil_of_parseAll {bare : Bool} {s trail : List Char} {i : Item} {more : List Item}
    (h : parseAll bare s = .ok (i :: more, trail)) : ∀ j ∈ more, j.gap ≠ [] := by
  fun_induction parseAll bare s generalizing i more trail with
  | case1 => simp at h
  | case2 =>
    obtain ⟨he, -⟩ := Prod.mk.inj (Except.ok.inj h)
    obtain ⟨rfl, rfl⟩ := List.cons.inj he
    simp
  | case3 => simp at h
  | case4 s i rest hparse hrest more trail hall ih =>
    obtain ⟨he, -⟩ := Prod.mk.inj (Except.ok.inj h)
    obtain ⟨rfl, rfl⟩ := List.cons.inj he
    cases more with
    | nil => simp
    | cons k more =>
      refine List.forall_mem_cons.mpr ⟨?_, ih hall⟩
      -- the rest is not empty, so it starts with a blank
      rw [gap_of_parseAll hall]
      refine leadingBlanks_ne_nil_iff.mpr ⟨fun hnil => hrest ?_, atGap_of_parse hparse⟩
      rw [hnil]
      rfl

theorem le_of_mem_located {start : Nat} {items : List Item} {x : Nat × Item}
    (hx : x ∈ located start items) : start + x.2.gap.length ≤ x.1 ∧ x.2 ∈ items := by
  induction items generalizing start with
  | nil => simp [located] at hx
  | cons i items ih =>
    rcases List.mem_cons.mp hx with rfl | hx
    · exact ⟨Nat.le_refl _, List.mem_cons_self ..⟩
    · obtain ⟨hle, hmem⟩ := ih hx
      exact ⟨by omega, List.mem_cons_of_mem _ hmem⟩

/-- A name stands in the items. -/
theorem exists_of_mem_located {start : Nat} {items : List Item} {x : Nat × Item}
    (hx : x ∈ located start items) : ∃ front back,
      items.flatMap source = front ++ (x.2.name ++ back) ∧ x.1 = start + front.length := by
  induction items generalizing start with
  | nil => simp [located] at hx
  | cons i items ih =>
    rcases List.mem_cons.mp hx with rfl | hx
    · obtain ⟨back, hbody⟩ : ∃ back, i.body = i.name ++ back := ⟨_, rfl⟩
      refine ⟨i.gap, back ++ items.flatMap source, ?_, rfl⟩
      rw [List.flatMap_cons, source, hbody, List.append_assoc, List.append_assoc]
    · obtain ⟨front, back, hsplit, hstart⟩ := ih hx
      refine ⟨i.source ++ front, back, ?_, ?_⟩
      · rw [List.flatMap_cons, hsplit, List.append_assoc]
      · rw [hstart, List.length_append, Nat.add_assoc]

/-- If a blank stands in front of every item but the first, each name ends in front of the next. -/
theorem sorted_located {start : Nat} {i : Item} {more : List Item} (h : ∀ j ∈ more, j.gap ≠ []) :
    (located start (i :: more)).Pairwise (fun a b => a.1 + a.2.name.length < b.1) := by
  induction more generalizing start i with
  | nil => exact List.pairwise_singleton _ _
  | cons j more ih =>
    obtain ⟨hj, hmore⟩ := List.forall_mem_cons.mp h
    refine List.pairwise_cons.mpr ⟨?_, ih hmore⟩
    intro x hx
    obtain ⟨hle, hmem⟩ := le_of_mem_located hx
    have hgap := List.length_pos_iff.mpr (h x.2 hmem)
    simp only [source, body, List.length_append] at hle
    show start + i.gap.length + i.name.length < x.1
    omega

end Item

/-! ## Declarations -/

namespace Declaration

/-- **What arguments declare**: nothing, the names of their items, or the one name in front of the
rest of the line. -/
theorem named_cases (declarer : Declarer) (arguments : List Char) :
    named declarer arguments = []
      ∨ (∃ bare items trail, Item.parseAll bare arguments = .ok (items, trail)
        ∧ named declarer arguments = Named.ofItems items)
      ∨ ∃ name text back, name ≠ [] ∧ (∀ c ∈ name, isVariableChar c = true)
        ∧ arguments = leadingBlanks arguments ++ (name ++ back)
        ∧ named declarer arguments = [⟨(leadingBlanks arguments).length, name, some text⟩] := by
  cases declarer with
  | arg =>
    cases hform : ArgForm.parse arguments with
    | error failure => exact Or.inl (by simp [named, hform])
    | ok form =>
      exact Or.inr (Or.inl ⟨true, form.items, form.trail, ArgForm.parse_eq_ok_iff.mp hform,
        by simp [named, hform]⟩)
  | env =>
    cases hform : EnvForm.parse arguments with
    | error failure => exact Or.inl (by simp [named, hform])
    | ok form =>
      rcases EnvForm.parse_eq_ok_iff.mp hform with ⟨items, trail, hall, rfl⟩
        | ⟨name, after, text, trail, hname, hafter, hne, -, -, -, rfl⟩
      · exact Or.inr (Or.inl ⟨false, items, trail, hall, by simp [named, hform]⟩)
      · refine Or.inr (Or.inr ⟨name, text, after, hne, ?_, ?_, by simp [named, hform]⟩)
        · rw [hname]
          exact fun c hc => List.mem_takeWhile_imp hc
        · rw [hname, hafter, List.takeWhile_append_dropWhile, leadingBlanks_append_skipBlanks]

/-- A name that arguments declare is not empty and stands in the arguments. -/
theorem exists_of_mem_named {declarer : Declarer} {arguments : List Char} {n : Named}
    (h : n ∈ named declarer arguments) : n.name ≠ [] ∧ ∃ front back,
      arguments = front ++ (n.name ++ back) ∧ n.start = front.length := by
  rcases named_cases declarer arguments with hnone | ⟨bare, items, trail, hall, hitems⟩
    | ⟨name, text, back, hne, -, hsplit, hone⟩
  · rw [hnone] at h
    cases h
  · rw [hitems] at h
    obtain ⟨x, hx, rfl⟩ := List.mem_map.mp h
    have hne := Item.forall_of_parseAll Item.name_ne_nil_of_parse hall
    obtain ⟨front, back, hsplit, hstart⟩ := Item.exists_of_mem_located hx
    refine ⟨hne x.2 (Item.le_of_mem_located hx).2, front, back ++ trail, ?_,
      hstart.trans (Nat.zero_add _)⟩
    rw [← Item.append_of_parseAll hall, hsplit, List.append_assoc, List.append_assoc]
  · rw [hone] at h
    obtain rfl := List.mem_singleton.mp h
    exact ⟨hne, leadingBlanks arguments, back, hsplit, rfl⟩

theorem isVariableChar_of_mem_named {declarer : Declarer} {arguments : List Char} {n : Named}
    (h : n ∈ named declarer arguments) : ∀ c ∈ n.name, isVariableChar c = true := by
  rcases named_cases declarer arguments with hnone | ⟨bare, items, trail, hall, hitems⟩
    | ⟨name, text, back, -, hname, -, hone⟩
  · rw [hnone] at h
    cases h
  · rw [hitems] at h
    obtain ⟨x, hx, rfl⟩ := List.mem_map.mp h
    exact Item.forall_of_parseAll Item.isVariableChar_of_parse hall x.2
      (Item.le_of_mem_located hx).2
  · rw [hone] at h
    obtain rfl := List.mem_singleton.mp h
    exact hname

/-- The names that arguments declare stand each in front of the next one. -/
theorem sorted_named (declarer : Declarer) (arguments : List Char) :
    (named declarer arguments).Pairwise (fun a b => a.start + a.name.length < b.start) := by
  rcases named_cases declarer arguments with hnone | ⟨bare, items, trail, hall, hitems⟩
    | ⟨name, text, back, -, -, -, hone⟩
  · rw [hnone]
    exact List.Pairwise.nil
  · rw [hitems]
    refine List.pairwise_map.mpr ?_
    cases items with
    | nil => exact List.Pairwise.nil
    | cons i more => exact Item.sorted_located (Item.gap_ne_nil_of_parseAll hall)
  · rw [hone]
    exact List.pairwise_singleton _ _

/-- Where no blanks are in front, the first name stands at the start. -/
theorem start_of_head?_named {declarer : Declarer} {arguments : List Char}
    (hstart : AtWord arguments) {n : Named} (h : (named declarer arguments).head? = some n) :
    n.start = 0 := by
  have hlead : leadingBlanks arguments = [] :=
    (leadingBlanks_append (show isAllBlank [] = true from rfl) hstart).1
  rcases named_cases declarer arguments with hnone | ⟨bare, items, trail, hall, hitems⟩
    | ⟨name, text, back, -, -, -, hone⟩
  · rw [hnone] at h
    cases h
  · rw [hitems] at h
    cases items with
    | nil => cases h
    | cons i more =>
      obtain rfl := Option.some.inj h
      show 0 + i.gap.length = 0
      rw [Item.gap_of_parseAll hall, hlead]
      rfl
  · rw [hone, hlead] at h
    obtain rfl := Option.some.inj h
    rfl

/-! ### Extents -/

/-- The extents do not change the names and their places. -/
theorem map_name_withExtents (stop : Nat) (ds : List Declaration) :
    (withExtents stop ds).map (fun d => (d.name, d.start)) = ds.map fun d => (d.name, d.start) := by
  fun_induction withExtents stop ds with
  | case1 => rfl
  | case2 d => rfl
  | case3 d next more ih =>
    rw [List.map_cons, ih]
    rfl

/-- **A declaration ends where the next one starts**, the last one at the end. -/
theorem getElem?_withExtents (stop : Nat) (ds : List Declaration) (k : Nat) :
    (withExtents stop ds)[k]? = ds[k]?.map fun d =>
      { d with extent := (ds[k + 1]?.map (·.start)).getD stop } := by
  fun_induction withExtents stop ds generalizing k with
  | case1 => rfl
  | case2 d =>
    cases k with
    | zero => rfl
    | succ k => rfl
  | case3 d next more ih =>
    cases k with
    | zero => rfl
    | succ k => exact ih k

/-! ### Commands -/

theorem ofCommand_of_known {c : Command} {declarer : Declarer} {line scope : Nat}
    (h : c.known? = some declarer.keyword) : ofCommand c line scope
      = withExtents c.argumentsEnd
        ((named declarer c.arguments).map (ofNamed c declarer line scope)) := by
  have hdeclarer : c.known?.bind Declarer.ofKeyword? = some declarer := by
    rw [h]
    cases declarer <;> rfl
  unfold ofCommand
  rw [hdeclarer]

section OfCommand

variable {c : Command} {line scope : Nat} {d : Declaration}

/-- The names that a command declares are those in its arguments. -/
theorem map_name_ofCommand (c : Command) (line scope : Nat) :
    (ofCommand c line scope).map (fun d => (d.name, d.start)) = []
      ∨ ∃ declarer, (ofCommand c line scope).map (fun d => (d.name, d.start))
        = (named declarer c.arguments).map fun n => (n.name, c.argumentsStart + n.start) := by
  unfold ofCommand
  split
  next => exact Or.inl rfl
  next declarer _ =>
    refine Or.inr ⟨declarer, ?_⟩
    rw [map_name_withExtents, List.map_map]
    rfl

/-- What a command declares is named in its arguments. -/
theorem exists_named_of_mem (h : d ∈ ofCommand c line scope) : ∃ declarer,
    ∃ n ∈ named declarer c.arguments, n.name = d.name ∧ c.argumentsStart + n.start = d.start := by
  have hplace : (d.name, d.start) ∈ (ofCommand c line scope).map fun d => (d.name, d.start) :=
    List.mem_map_of_mem h
  rcases map_name_ofCommand c line scope with hnone | ⟨declarer, hnamed⟩
  · rw [hnone] at hplace
    cases hplace
  · rw [hnamed] at hplace
    obtain ⟨n, hn, heq⟩ := List.mem_map.mp hplace
    exact ⟨declarer, n, hn, Prod.mk.inj heq⟩

/-- **A name that a command declares is not empty and stands in its arguments.** -/
theorem exists_of_mem_ofCommand (h : d ∈ ofCommand c line scope) : d.name ≠ [] ∧ ∃ front back,
    c.arguments = front ++ (d.name ++ back) ∧ d.start = c.argumentsStart + front.length := by
  obtain ⟨declarer, n, hn, hname, hstart⟩ := exists_named_of_mem h
  obtain ⟨hne, front, back, hsplit, hfront⟩ := exists_of_mem_named hn
  rw [← hname, ← hstart]
  exact ⟨hne, front, back, hsplit, congrArg (c.argumentsStart + ·) hfront⟩

theorem isVariableChar_of_mem_ofCommand (h : d ∈ ofCommand c line scope) :
    ∀ ch ∈ d.name, isVariableChar ch = true := by
  obtain ⟨declarer, n, hn, hname, -⟩ := exists_named_of_mem h
  rw [← hname]
  exact isVariableChar_of_mem_named hn

theorem span_of_mem_ofCommand (h : d ∈ ofCommand c line scope) :
    c.argumentsStart ≤ d.start ∧ d.start < d.stop ∧ d.stop ≤ c.argumentsEnd := by
  obtain ⟨hne, front, back, hsplit, hstart⟩ := exists_of_mem_ofCommand h
  have hpos := List.length_pos_iff.mpr hne
  have hlength := congrArg List.length hsplit
  simp only [List.length_append] at hlength
  simp only [stop, Command.argumentsEnd]
  omega

/-- **Each name that a command declares ends in front of the next one.** -/
theorem sorted_ofCommand (c : Command) (line scope : Nat) :
    (ofCommand c line scope).Pairwise (fun a b => a.stop < b.start) := by
  have hplaces : ((ofCommand c line scope).map fun d => (d.name, d.start)).Pairwise
      (fun a b => a.2 + a.1.length < b.2) := by
    rcases map_name_ofCommand c line scope with hnone | ⟨declarer, hnamed⟩
    · rw [hnone]
      exact List.Pairwise.nil
    · rw [hnamed, List.pairwise_map]
      refine (sorted_named declarer c.arguments).imp fun {a b} hab => ?_
      show c.argumentsStart + a.start + a.name.length < c.argumentsStart + b.start
      omega
  exact List.pairwise_map.mp hplaces

/-- The first declaration starts where the arguments do. -/
theorem start_of_head?_ofCommand (hstart : AtWord c.arguments)
    (h : (ofCommand c line scope).head? = some d) : d.start = c.argumentsStart := by
  have hplace : ((ofCommand c line scope).map fun d => (d.name, d.start)).head?
      = some (d.name, d.start) := by
    rw [List.head?_map, h]
    rfl
  rcases map_name_ofCommand c line scope with hnone | ⟨declarer, hnamed⟩
  · rw [hnone] at hplace
    cases hplace
  · rw [hnamed, List.head?_map] at hplace
    obtain ⟨n, hn, heq⟩ := Option.map_eq_some_iff.mp hplace
    rw [← (Prod.mk.inj heq).2, start_of_head?_named hstart hn, Nat.add_zero]

/-- The text of a declaration ends where the next one starts, or with the arguments. -/
theorem extent_of_getElem?_ofCommand {k : Nat} (h : (ofCommand c line scope)[k]? = some d) :
    d.extent = ((ofCommand c line scope)[k + 1]?.map (·.start)).getD c.argumentsEnd := by
  unfold ofCommand at h ⊢
  split at h
  next => cases h
  next declarer _ =>
    rw [getElem?_withExtents] at h
    obtain ⟨d₀, -, rfl⟩ := Option.map_eq_some_iff.mp h
    simp only [getElem?_withExtents, Option.map_map]
    rfl

/-- **The text of a declaration** covers its name and stays inside the arguments. -/
theorem extent_of_mem_ofCommand (h : d ∈ ofCommand c line scope) :
    d.stop ≤ d.extent ∧ d.extent ≤ c.argumentsEnd := by
  obtain ⟨k, hk⟩ := List.mem_iff_getElem?.mp h
  rw [extent_of_getElem?_ofCommand hk]
  cases hnext : (ofCommand c line scope)[k + 1]? with
  | none => exact ⟨(span_of_mem_ofCommand h).2.2, Nat.le_refl _⟩
  | some next =>
    obtain ⟨hlt, hd⟩ := List.getElem?_eq_some_iff.mp hk
    obtain ⟨hlt', hnext⟩ := List.getElem?_eq_some_iff.mp hnext
    have hbefore := List.pairwise_iff_getElem.mp (sorted_ofCommand c line scope) k (k + 1) hlt hlt'
      (Nat.lt_succ_self k)
    rw [hd, hnext] at hbefore
    have hspan := span_of_mem_ofCommand (List.mem_of_getElem hnext)
    show d.stop ≤ next.start ∧ next.start ≤ c.argumentsEnd
    omega

end OfCommand

theorem onName_iff {d : Declaration} {offset : Nat} :
    d.onName offset = true ↔ d.start ≤ offset ∧ offset ≤ d.stop := by
  simp [onName]

/-- **The name at an offset is found**, since no other one is there. -/
theorem find?_onName {ds : List Declaration} (h : ds.Pairwise (fun a b => a.stop < b.start))
    {d : Declaration} (hd : d ∈ ds) {offset : Nat} (ho : d.start ≤ offset ∧ offset ≤ d.stop) :
    ds.find? (·.onName offset) = some d := by
  obtain ⟨front, back, rfl⟩ := List.append_of_mem hd
  rw [List.find?_eq_some_iff_append]
  refine ⟨onName_iff.mpr ho, front, back, rfl, fun a ha => ?_⟩
  have hlt := (List.pairwise_append.mp h).2.2 a ha d (List.mem_cons_self ..)
  rw [Bool.not_eq_true', ← Bool.not_eq_true, onName_iff]
  omega

end Declaration

/-! ## References -/

namespace Reference

theorem le_start_of_mem_search {escape : List Char} {line : Nat} {previous : Option Char}
    {offset : Nat} {s : List Char} {r : Reference}
    (h : r ∈ search escape line previous offset s) : offset ≤ r.start := by
  fun_induction search escape line previous offset s with
  | case1 => simp at h
  | case2 _ offset s _ ih => exact Nat.le_of_succ_le (ih h)
  | case3 _ offset s form rest _ stop more _ ih => exact Nat.le_trans (by omega) (ih h)
  | case4 _ offset s form rest _ stop more _ ih =>
    rcases List.mem_cons.mp h with rfl | h
    · exact Nat.le_refl _
    · exact Nat.le_trans (by omega) (ih h)
  | case5 _ offset c s _ ih => exact Nat.le_of_succ_le (ih h)

theorem line_of_mem_search {escape : List Char} {line : Nat} {previous : Option Char}
    {offset : Nat} {s : List Char} {r : Reference}
    (h : r ∈ search escape line previous offset s) : r.line = line := by
  fun_induction search escape line previous offset s with
  | case1 => simp at h
  | case2 _ offset s _ ih => exact ih h
  | case3 _ offset s form rest _ stop more _ ih => exact ih h
  | case4 _ offset s form rest _ stop more _ ih =>
    rcases List.mem_cons.mp h with rfl | h
    · rfl
    · exact ih h
  | case5 _ offset c s _ ih => exact ih h

/-- References stand in the text that they are looked for in. -/
theorem le_start_of_mem_find {escape : List Char} {line offset : Nat} {s : List Char}
    {r : Reference} (h : r ∈ find escape line offset s) : s ≠ [] ∧ offset ≤ r.start := by
  refine ⟨?_, le_start_of_mem_search h⟩
  rintro rfl
  simp [find, search] at h

theorem contains_iff {r : Reference} {offset : Nat} :
    r.contains offset = true ↔ r.start ≤ offset ∧ offset ≤ r.stop := by
  simp [contains]

end Reference

end Dockerfile
