import Dockerfile.Proofs.Hover.Steps

/-!
# The order of the steps

A hover is the answer of the first step that applies, with one exception. The word of a trigger that
is no keyword shows nothing, and it does not let a reference inside the word show anything either
(`Document.Shadowed`).

* `hover_of_commandAt`, `hover_of_ownName`, `hover_of_references` — what a hover comes to
* `hover_eq_first_answer_iff` — a hover is the first answer iff the place is not shadowed
-/

namespace Dockerfile

theorem Directive.onKey_iff {d : Directive} {offset : Nat} :
    d.onKey offset = true ↔ d.keyStart ≤ offset ∧ offset ≤ d.keyEnd := by
  simp [onKey]

namespace Document

/-- A reference that has a value is inside the word of a trigger, and the word is no keyword. -/
def Shadowed (d : Document) (e : Entry) (offset : Nat) : Prop :=
  ∃ i c r, e.node = .instruction i ∧ i.trigger = some c ∧ c.known? = none
    ∧ (c.wordStart ≤ offset ∧ offset ≤ c.wordEnd)
    ∧ FirstAt (d.referencesIn e.line.index i) offset r ∧ r.value ≠ none

variable {s : List Char} {p : Position} {e : Entry} {offset : Nat} {provider : Provider}

/-! ## What a hover comes to -/

theorem hover_of_directive (h : (ofText s).locate p = some (e, offset)) {x : Directive}
    (hx : e.node = .directive x) :
    Dockerfile.hover provider s p = if x.onKey offset then provider .escape else none := by
  have hrec := recognized_of_directive (locate_eq_some_iff.mp h).1 hx
  unfold Dockerfile.hover Document.hover target?
  simp only [h, hx, Option.bind_eq_bind, Option.bind_some, Directive.target?, hrec, Bool.true_and]
  split <;> rfl

section Instruction

variable (h : (ofText s).locate p = some (e, offset)) {i : Instruction}
  (hi : e.node = .instruction i)

include h hi

theorem hover_of_instruction : Dockerfile.hover provider s p
    = ((ofText s).instructionTarget? e.line.index i offset).bind (·.contents provider) := by
  unfold Dockerfile.hover Document.hover target?
  simp only [h, hi, Option.bind_eq_bind, Option.bind_some]

/-- On a word a hover is the documentation of the keyword, if the word is one. -/
theorem hover_of_commandAt {c : Command} (hc : i.commandAt offset = some c) :
    Dockerfile.hover provider s p = c.known?.bind fun k => provider (.keyword k) := by
  rw [hover_of_instruction h hi, instructionTarget?, hc]
  show (c.known?.map _).bind _ = _
  cases c.known? <;> rfl

variable (hc : i.commandAt offset = none)

include hc

/-- On the name in a declaration of its own, a hover is the value declared. -/
theorem hover_of_ownName (harg : i.known? = some .arg) {x : Declaration}
    (hx : ((ofText s).declarationsOf e.line.index i).find? (·.onName offset) = some x) :
    Dockerfile.hover provider s p = x.value := by
  rw [hover_of_instruction h hi, instructionTarget?, hc, if_pos harg,
    declaredBy_eq (locate_eq_some_iff.mp h).1 hi, ← declarationsOf]
  simp only [hx]
  cases x.value <;> rfl

/-- Elsewhere a hover is the value of the first reference there. -/
theorem hover_of_references
    (hx : i.known? = some .arg →
      ((ofText s).declarationsOf e.line.index i).find? (·.onName offset) = none) :
    Dockerfile.hover provider s p
      = (((ofText s).referencesIn e.line.index i).find? (·.contains offset)).bind (·.value) := by
  have hown : (if i.known? = some .arg then (ofText s).table.declaredBy e.line.index
      else []).find? (·.onName offset) = none := by
    rw [declaredBy_eq (locate_eq_some_iff.mp h).1 hi, ← declarationsOf]
    split
    next harg => exact hx harg
    next => rfl
  rw [hover_of_instruction h hi, instructionTarget?, hc,
    referencesOn_eq (locate_eq_some_iff.mp h).1 hi, ← referencesIn]
  simp only [hown]
  cases ((ofText s).referencesIn e.line.index i).find? (·.contains offset) with
  | none => rfl
  | some r => cases hr : r.value <;> simp [hr, Target.contents]

end Instruction

/-- References start behind the word of the instruction. -/
theorem wordEnd_lt_of_firstAt (he : e ∈ (ofText s).entries) {i : Instruction}
    (hi : e.node = .instruction i) {r : ResolvedReference}
    (hr : FirstAt ((ofText s).referencesIn e.line.index i) offset r) : i.wordEnd < offset := by
  obtain ⟨front, back, hrefs, hspan, -⟩ := hr
  have hmem : r ∈ (ofText s).referencesIn e.line.index i := by
    rw [hrefs]
    simp
  obtain ⟨q, hq, rfl⟩ := List.mem_map.mp hmem
  obtain ⟨hne, hle⟩ := Reference.le_start_of_mem_find hq
  have hlt := Command.wordEnd_lt_argumentsStart
    (Instruction.parse_toCommand (parse_of_instruction he hi)) hne
  simp only at hspan
  omega

/-! ## The hover and the first answer -/

/-- If step 2 does not apply, a word at the offset is no keyword. -/
theorem known?_of_not_gives (he : e ∈ (ofText s).entries) {i : Instruction}
    (hi : e.node = .instruction i) (hno : ∀ a, ¬Gives provider (ofText s) e offset 2 a)
    {c : Command} (hc : i.commandAt offset = some c) : c.known? = none := by
  obtain ⟨hcommand, hword⟩ :=
    (Instruction.commandAt_eq_some_iff (parse_of_instruction he hi)).mp hc
  refine Option.eq_none_iff_forall_ne_some.mpr fun k hk => ?_
  exact hno _ (.keyword hi hcommand hword hk)

/-- If step 2 does not apply, no word of an `ARG` is at the offset. -/
theorem commandAt_of_arg (he : e ∈ (ofText s).entries) {i : Instruction}
    (hi : e.node = .instruction i) (harg : i.known? = some .arg)
    (hno : ∀ a, ¬Gives provider (ofText s) e offset 2 a) : i.commandAt offset = none := by
  refine Option.eq_none_iff_forall_ne_some.mpr fun c hc => ?_
  have hparse := parse_of_instruction he hi
  have hknown := known?_of_not_gives he hi hno hc
  rcases ((Instruction.commandAt_eq_some_iff hparse).mp hc).1 with rfl | ht
  · rw [harg] at hknown
    cases hknown
  · -- only `ONBUILD` has a trigger
    rw [(Instruction.trigger_eq_some hparse ht).1] at harg
    cases harg

/-- If step 3 does not apply, no name that an `ARG` declares is at the offset. -/
theorem find?_of_not_gives {i : Instruction} (hi : e.node = .instruction i)
    (hno : ∀ a, ¬Gives provider (ofText s) e offset 3 a) (harg : i.known? = some .arg) :
    ((ofText s).declarationsOf e.line.index i).find? (·.onName offset) = none := by
  rw [List.find?_eq_none]
  intro x hx hname
  exact hno _ (.ownName hi harg hx (Declaration.onName_iff.mp hname))

/-- **A place that is not shadowed shows the first answer.** -/
theorem hover_of_firstAnswer (h : (ofText s).locate p = some (e, offset))
    (hs : ¬(ofText s).Shadowed e offset) {a : Option (List Char)}
    (ha : FirstAnswer provider (ofText s) e offset a) : Dockerfile.hover provider s p = a := by
  have he := (locate_eq_some_iff.mp h).1
  rcases ha with ⟨n, hgives, hmin⟩ | ⟨rfl, hnone⟩
  · cases hgives with
    | escapeKey hnode hkey =>
      rw [hover_of_directive h hnode, if_pos (Directive.onKey_iff.mpr hkey)]
    | keyword hnode hcommand hword hknown =>
      have hc := (Instruction.commandAt_eq_some_iff (parse_of_instruction he hnode)).mpr
        ⟨hcommand, hword⟩
      rw [hover_of_commandAt h hnode hc, hknown]
      rfl
    | ownName hnode harg hmem hname =>
      have hc := commandAt_of_arg he hnode harg (hmin 2 (by omega))
      exact hover_of_ownName h hnode hc harg
        (Declaration.find?_onName (Declaration.sorted_ofCommand _ _ _) hmem hname)
    | @reference i r hnode hfirst =>
      cases hc : i.commandAt offset with
      | none =>
        rw [hover_of_references h hnode hc (find?_of_not_gives hnode (hmin 3 (by omega))),
          firstAt_iff.mp hfirst, Option.bind_some]
      | some c =>
        -- a word that is no keyword: nothing is shown, so the reference must have no value
        have hknown := known?_of_not_gives he hnode (hmin 2 (by omega)) hc
        rw [hover_of_commandAt h hnode hc, hknown, Option.bind_none]
        obtain ⟨hcommand, hword⟩ :=
          (Instruction.commandAt_eq_some_iff (parse_of_instruction he hnode)).mp hc
        rcases hcommand with rfl | ht
        · -- no reference touches the word of the instruction
          have := wordEnd_lt_of_firstAt he hnode hfirst
          omega
        · by_cases hr : r.value = none
          · exact hr.symm
          · exact absurd ⟨i, c, r, hnode, ht, hknown, hword, hfirst, hr⟩ hs
  · cases hnode : e.node with
    | blank => simp [Dockerfile.hover, Document.hover, target?, h, hnode]
    | comment => simp [Dockerfile.hover, Document.hover, target?, h, hnode]
    | directive x =>
      rw [hover_of_directive h hnode, if_neg]
      exact fun hkey => hnone 1 _ (.escapeKey hnode (Directive.onKey_iff.mp hkey))
    | instruction i =>
      cases hc : i.commandAt offset with
      | some c =>
        rw [hover_of_commandAt h hnode hc, known?_of_not_gives he hnode (hnone 2) hc,
          Option.bind_none]
      | none =>
        rw [hover_of_references h hnode hc (find?_of_not_gives hnode (hnone 3))]
        cases hr : ((ofText s).referencesIn e.line.index i).find? (·.contains offset) with
        | none => rfl
        | some r => exact absurd (.reference hnode (firstAt_iff.mpr hr)) (hnone 4 r.value)

/-- At a shadowed place no step before the last one applies. -/
theorem Shadowed.not_gives (he : e ∈ (ofText s).entries) (hs : (ofText s).Shadowed e offset)
    {n : Nat} (hn : n < 4) (a : Option (List Char)) :
    ¬Gives provider (ofText s) e offset n a := by
  obtain ⟨i, c, r, hnode, ht, hknown, hword, -, -⟩ := hs
  have hparse := parse_of_instruction he hnode
  intro ha
  cases ha with
  | escapeKey hnode' =>
    rw [hnode] at hnode'
    cases hnode'
  | keyword hnode' hcommand' hword' hknown' =>
    rw [hnode] at hnode'
    obtain rfl := Node.instruction.inj hnode'
    have hc := (Instruction.commandAt_eq_some_iff hparse).mpr ⟨Or.inr ht, hword⟩
    rw [(Instruction.commandAt_eq_some_iff hparse).mpr ⟨hcommand', hword'⟩] at hc
    obtain rfl := Option.some.inj hc
    rw [hknown] at hknown'
    cases hknown'
  | ownName hnode' harg =>
    rw [hnode] at hnode'
    obtain rfl := Node.instruction.inj hnode'
    rw [(Instruction.trigger_eq_some hparse ht).1] at harg
    cases harg
  | reference => omega

/-- **A shadowed place shows nothing.** -/
theorem Shadowed.hover_eq_none (h : (ofText s).locate p = some (e, offset))
    (hs : (ofText s).Shadowed e offset) (provider : Provider) :
    Dockerfile.hover provider s p = none := by
  obtain ⟨i, c, r, hnode, ht, hknown, hword, -, -⟩ := hs
  have hparse := parse_of_instruction (locate_eq_some_iff.mp h).1 hnode
  have hc := (Instruction.commandAt_eq_some_iff hparse).mpr ⟨Or.inr ht, hword⟩
  rw [hover_of_commandAt h hnode hc, hknown, Option.bind_none]

/--
**A hover is the answer of the first step that applies, at every place that is not shadowed and at
no other.**

There is exactly one such answer. A shadowed place, which is inside the word of a trigger that is no
keyword, on a reference with a value, shows nothing instead of the value. A word of an instruction
that is no keyword hides nothing.
-/
theorem hover_eq_first_answer_iff (h : (ofText s).locate p = some (e, offset))
    (provider : Provider) :
    ∃ a, (∀ b, FirstAnswer provider (ofText s) e offset b ↔ b = a)
      ∧ (Dockerfile.hover provider s p = a ↔ ¬(ofText s).Shadowed e offset)
      ∧ ((ofText s).Shadowed e offset → Dockerfile.hover provider s p = none) := by
  have he := (locate_eq_some_iff.mp h).1
  obtain ⟨a, ha⟩ := exists_firstAnswer provider (ofText s) e offset
  refine ⟨a, fun b => ⟨fun hb => hb.unique he ha, fun hb => hb ▸ ha⟩, ⟨?_, ?_⟩, fun hs => ?_⟩
  · intro heq hs
    obtain ⟨i, c, r, hnode, -, -, -, hfirst, hr⟩ := id hs
    have hvalue : FirstAnswer provider (ofText s) e offset r.value :=
      Or.inl ⟨4, .reference hnode hfirst, fun m hm b => hs.not_gives he hm b⟩
    rw [hs.hover_eq_none h, ha.unique he hvalue] at heq
    exact hr heq.symm
  · intro hs
    exact hover_of_firstAnswer h hs ha
  · exact hs.hover_eq_none h provider

/-- `ARG foo=1`, `FOO $foo`: the word of the second line is no keyword, and the reference behind it
shows its value. -/
theorem hover_behind_unknown_word :
    let s := "ARG foo=1\nFOO $foo".toList
    ∃ e, (ofText s).locate ⟨1, 5⟩ = some (e, 5)
      ∧ FirstAnswer (fun _ => none) (ofText s) e 5 (some ['1'])
      ∧ Dockerfile.hover (fun _ => none) s ⟨1, 5⟩ = some ['1'] := by
  intro s
  have hoffset : ((ofText s).locate ⟨1, 5⟩).map Prod.snd = some 5 := by decide +kernel
  have hvalue : Dockerfile.hover (fun _ => none) s ⟨1, 5⟩ = some ['1'] := by decide +kernel
  obtain ⟨⟨e, offset⟩, hloc, rfl⟩ := Option.map_eq_some_iff.mp hoffset
  obtain ⟨a, hfirst, hhover, hnone⟩ := hover_eq_first_answer_iff hloc (fun _ => none)
  have hs : ¬(ofText s).Shadowed e 5 := by
    intro hs
    rw [hnone hs] at hvalue
    cases hvalue
  have ha := hhover.mpr hs
  rw [hvalue] at ha
  exact ⟨e, hloc, (hfirst _).mpr ha, hvalue⟩

/-- `ARG foo=1`, `ONBUILD $foo`: the word of the trigger is the reference itself. The first step
that applies at it is that of the reference, and still nothing is shown. -/
theorem hover_trigger_word_shadows :
    let s := "ARG foo=1\nONBUILD $foo".toList
    ∃ e, (ofText s).locate ⟨1, 9⟩ = some (e, 9)
      ∧ FirstAnswer (fun _ => none) (ofText s) e 9 (some ['1'])
      ∧ Dockerfile.hover (fun _ => none) s ⟨1, 9⟩ = none := by
  intro s
  let c : Command := ⟨"$foo".toList, 8, [], 12⟩
  let i : Instruction := ⟨⟨"ONBUILD".toList, 0, "$foo".toList, 8⟩, some c⟩
  let e : Entry := ⟨⟨1, "ONBUILD $foo".toList, ⟨1, 0, 12, 10, 0⟩, []⟩, .instruction i⟩
  let r : ResolvedReference :=
    ⟨⟨"foo".toList, 8, 12, 1⟩, some ⟨"foo".toList, some ['1'], 4, 9, 0, 0, .arg⟩⟩
  have hloc : (ofText s).locate ⟨1, 9⟩ = some (e, 9) := by decide +kernel
  have hfirst : FirstAt ((ofText s).referencesIn 1 i) 9 r := by
    rw [firstAt_iff]
    decide +kernel
  have hs : (ofText s).Shadowed e 9 :=
    ⟨i, c, r, rfl, rfl, by decide +kernel, by decide +kernel, hfirst, by decide +kernel⟩
  have hgives : Gives (fun _ => none) (ofText s) e 9 4 (some ['1']) :=
    Gives.reference (i := i) (r := r) rfl hfirst
  refine ⟨e, hloc, Or.inl ⟨4, hgives, fun m hm b => ?_⟩, hs.hover_eq_none hloc _⟩
  exact hs.not_gives (locate_eq_some_iff.mp hloc).1 hm b

end Document

end Dockerfile
