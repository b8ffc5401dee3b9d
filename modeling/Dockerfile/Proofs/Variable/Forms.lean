import Dockerfile.Proofs.Syntax.Grammars
import Dockerfile.Variable.Reference

/-!
# The forms of a reference

The forms as they are written down, with nothing said about how they are read. A name alone goes on
as long as it can; a name in braces ends at the closing brace or at the colon, and a word ends at
the first closing brace. So at one place there is at most one form, and reading finds it.

* `ReferenceForm.Begins` — the forms that a text starts with
* `ReferenceForm.begins_iff` — reading finds the form
* `ReferenceForm.afterDollar?_append` — the form and what is left are the text
* `ReferenceForm.Begins.unique` — there is only one
-/

namespace Dockerfile.ReferenceForm

/-- A letter or `_`, and then letters, digits and `_`. -/
def IsName (s : List Char) : Prop :=
  ∃ c more, s = c :: more ∧ isNameStart c = true ∧ ∀ d ∈ more, isNameChar d = true

/-- A text starts with a form: `$name`, where the name is as long as it can be, `${name}`, or
`${name:-word}`, `${name:+word}` or `${name:?word}`, where the word goes up to the first closing
brace. -/
inductive Begins : ReferenceForm → List Char → Prop
  | bare {name rest : List Char} (hname : IsName name)
    (hrest : ∀ c ∈ rest.head?, isNameChar c = false) : Begins (.bare name) ('$' :: (name ++ rest))
  | braced {name rest : List Char} (hname : IsName name) :
    Begins (.braced name) ('$' :: '{' :: (name ++ '}' :: rest))
  | withWord {name word rest : List Char} {operator : Char} (hname : IsName name)
    (hoperator : operator = '-' ∨ operator = '+' ∨ operator = '?') (hword : '}' ∉ word) :
    Begins (.withWord name operator word)
      ('$' :: '{' :: (name ++ ':' :: operator :: (word ++ '}' :: rest)))

/-! ## Reading names -/

variable {s name rest : List Char} {f g : ReferenceForm}

theorem isNameChar_of_isNameStart {c : Char} (h : isNameStart c = true) : isNameChar c = true := by
  rcases Bool.or_eq_true_iff.mp h with h | h <;> simp [isNameChar, Char.isAlphanum, h]

theorem IsName.isNameChar_of_mem (h : IsName name) : ∀ c ∈ name, isNameChar c = true := by
  obtain ⟨c, more, rfl, hc, hmore⟩ := h
  exact List.forall_mem_cons.mpr ⟨isNameChar_of_isNameStart hc, hmore⟩

theorem isOperator_iff {c : Char} : isOperator c = true ↔ c = '-' ∨ c = '+' ∨ c = '?' := by
  simp [isOperator, or_assoc]

theorem name?_eq_some_iff : name? s = some (name, rest)
    ↔ IsName name ∧ (∀ c ∈ rest.head?, isNameChar c = false) ∧ s = name ++ rest := by
  constructor
  · intro h
    cases s with
    | nil => cases h
    | cons c s =>
      rw [name?] at h
      by_cases hc : isNameStart c = true
      · rw [if_pos hc] at h
        obtain ⟨rfl, rfl⟩ := Prod.mk.inj (Option.some.inj h)
        refine ⟨⟨c, _, rfl, hc, fun d hd => List.mem_takeWhile_imp hd⟩, ?_, ?_⟩
        · intro d hd
          have hnot := List.head?_dropWhile_not isNameChar s
          rw [hd] at hnot
          simpa using hnot
        · rw [List.cons_append, List.takeWhile_append_dropWhile]
      · rw [if_neg hc] at h
        cases h
  · rintro ⟨⟨c, more, rfl, hc, hmore⟩, hrest, rfl⟩
    obtain ⟨htake, hdrop⟩ := takeWhile_append_of_head hmore hrest
    rw [List.cons_append, name?, if_pos hc, htake, hdrop]

theorem head_ne_brace_of_isName (h : IsName name) : ∀ tail, name ++ rest ≠ '{' :: tail := by
  obtain ⟨c, more, rfl, hc, -⟩ := h
  intro tail heq
  obtain ⟨rfl, -⟩ := List.cons.inj heq
  exact absurd hc (by decide)

/-- What stands between the name in braces and the closing brace, and the closing brace. -/
theorem closing?_eq_some_iff : closing? name s = some (f, rest)
    ↔ s = '}' :: rest ∧ f = .braced name
      ∨ ∃ operator word, isOperator operator = true ∧ '}' ∉ word
        ∧ s = ':' :: operator :: (word ++ '}' :: rest) ∧ f = .withWord name operator word := by
  constructor
  · intro h
    unfold closing? at h
    split at h
    next =>
      obtain ⟨rfl, rfl⟩ := Prod.mk.inj (Option.some.inj h)
      exact Or.inl ⟨rfl, rfl⟩
    next operator s =>
      have hsplit := List.takeWhile_append_dropWhile (p := (· != '}')) (l := s)
      by_cases hop : isOperator operator = true
      · rw [if_pos hop] at h
        split at h
        next => cases h
        next brace tail hd =>
          obtain ⟨rfl, rfl⟩ := Prod.mk.inj (Option.some.inj h)
          -- the word ends in front of a closing brace
          have hbrace : brace = '}' := by
            have := List.head?_dropWhile_not (· != '}') s
            simpa [hd] using this
          rw [hd, hbrace] at hsplit
          refine Or.inr ⟨operator, _, hop, ?_, by rw [hsplit], rfl⟩
          intro hmem
          simpa using List.mem_takeWhile_imp hmem
      · rw [if_neg hop] at h
        cases h
    next => cases h
  · rintro (⟨rfl, rfl⟩ | ⟨operator, word, hop, hword, rfl, rfl⟩)
    · rfl
    · have hrun : ∀ c ∈ word, (c != '}') = true := fun c hc =>
        bne_iff_ne.mpr fun heq => hword (heq ▸ hc)
      obtain ⟨htake, hdrop⟩ := takeWhile_append_of_head hrun
        (show ∀ c ∈ ('}' :: rest).head?, (c != '}') = false by simp)
      rw [closing?, if_pos hop, hdrop, htake]

/-! ## Reading forms -/

/-- **The form written out and what is left are the text.** -/
theorem afterDollar?_append (h : afterDollar? s = some (f, rest)) :
    f.source ++ rest = '$' :: s := by
  unfold afterDollar? at h
  split at h
  next s =>
    obtain ⟨⟨name, after⟩, hname, hclose⟩ := Option.bind_eq_some_iff.mp h
    obtain ⟨-, -, rfl⟩ := name?_eq_some_iff.mp hname
    rcases closing?_eq_some_iff.mp hclose with ⟨rfl, rfl⟩ | ⟨operator, word, -, -, rfl, rfl⟩ <;>
      simp [source]
  next =>
    obtain ⟨⟨name, after⟩, hname, heq⟩ := Option.map_eq_some_iff.mp h
    obtain ⟨rfl, rfl⟩ := Prod.mk.inj heq
    obtain ⟨-, -, rfl⟩ := name?_eq_some_iff.mp hname
    rfl

/-- **Reading finds the form that a text starts with.** -/
theorem begins_iff :
    f.Begins s ↔ ∃ tail rest, s = '$' :: tail ∧ afterDollar? tail = some (f, rest) := by
  constructor
  · intro h
    cases h with
    | @bare name rest hname hrest =>
      refine ⟨_, rest, rfl, ?_⟩
      unfold afterDollar?
      split
      next tail heq => exact absurd heq (head_ne_brace_of_isName hname tail)
      next => rw [name?_eq_some_iff.mpr ⟨hname, hrest, rfl⟩]; rfl
    | @braced name rest hname =>
      refine ⟨_, rest, rfl, ?_⟩
      have hread : name? (name ++ '}' :: rest) = some (name, '}' :: rest) :=
        name?_eq_some_iff.mpr ⟨hname, by simp; decide, rfl⟩
      rw [afterDollar?, hread, Option.bind_some]
      exact closing?_eq_some_iff.mpr (Or.inl ⟨rfl, rfl⟩)
    | @withWord name word rest operator hname hoperator hword =>
      refine ⟨_, rest, rfl, ?_⟩
      have hread : name? (name ++ ':' :: operator :: (word ++ '}' :: rest))
          = some (name, ':' :: operator :: (word ++ '}' :: rest)) :=
        name?_eq_some_iff.mpr ⟨hname, by simp; decide, rfl⟩
      rw [afterDollar?, hread, Option.bind_some]
      exact closing?_eq_some_iff.mpr
        (Or.inr ⟨operator, word, isOperator_iff.mpr hoperator, hword, rfl, rfl⟩)
  · rintro ⟨tail, rest, rfl, h⟩
    unfold afterDollar? at h
    split at h
    next s =>
      obtain ⟨⟨name, after⟩, hread, hclose⟩ := Option.bind_eq_some_iff.mp h
      obtain ⟨hname, -, rfl⟩ := name?_eq_some_iff.mp hread
      rcases closing?_eq_some_iff.mp hclose with ⟨rfl, rfl⟩ | ⟨operator, word, hop, hword, rfl, rfl⟩
      · exact .braced hname
      · exact .withWord hname (isOperator_iff.mp hop) hword
    next =>
      obtain ⟨⟨name, after⟩, hread, heq⟩ := Option.map_eq_some_iff.mp h
      obtain ⟨rfl, rfl⟩ := Prod.mk.inj heq
      obtain ⟨hname, hrest, rfl⟩ := name?_eq_some_iff.mp hread
      exact .bare hname hrest

theorem begins_cons_iff {c : Char} :
    f.Begins (c :: s) ↔ c = '$' ∧ ∃ rest, afterDollar? s = some (f, rest) := by
  rw [begins_iff]
  constructor
  · rintro ⟨tail, rest, heq, h⟩
    obtain ⟨rfl, rfl⟩ := List.cons.inj heq
    exact ⟨rfl, rest, h⟩
  · rintro ⟨rfl, rest, h⟩
    exact ⟨s, rest, rfl, h⟩

theorem not_begins_nil : ¬f.Begins [] := by
  intro h
  cases h

theorem forall_not_begins_cons_iff {c : Char} :
    (∀ f : ReferenceForm, ¬f.Begins (c :: s)) ↔ (c = '$' → afterDollar? s = none) := by
  constructor
  · intro h hc
    rw [Option.eq_none_iff_forall_ne_some]
    rintro ⟨f, rest⟩ hread
    exact h f (begins_cons_iff.mpr ⟨hc, rest, hread⟩)
  · intro h f hf
    obtain ⟨hc, rest, hread⟩ := begins_cons_iff.mp hf
    rw [h hc] at hread
    cases hread

instance decidableBegins (f : ReferenceForm) (s : List Char) : Decidable (f.Begins s) :=
  match s with
  | [] => isFalse not_begins_nil
  | c :: s => decidable_of_iff (c = '$' ∧ (afterDollar? s).map Prod.fst = some f) <| by
    simp [begins_cons_iff]

instance decidableNotBegins (s : List Char) : Decidable (∀ f : ReferenceForm, ¬f.Begins s) :=
  match s with
  | [] => isTrue fun _ => not_begins_nil
  | _ :: _ => decidable_of_iff _ forall_not_begins_cons_iff.symm

/-- **At one place there is at most one form.** -/
theorem Begins.unique (hf : f.Begins s) (hg : g.Begins s) : f = g := by
  obtain ⟨tail, rest, rfl, hread⟩ := begins_iff.mp hf
  obtain ⟨tail', rest', heq, hread'⟩ := begins_iff.mp hg
  obtain ⟨-, rfl⟩ := List.cons.inj heq
  rw [hread] at hread'
  exact (Prod.mk.inj (Option.some.inj hread')).1

/-- The form is written there. -/
theorem Begins.take_eq (h : f.Begins s) : s.take f.source.length = f.source := by
  obtain ⟨tail, rest, rfl, hread⟩ := begins_iff.mp h
  rw [← afterDollar?_append hread, List.take_left]

end Dockerfile.ReferenceForm
