import Dockerfile.Proofs.Variable.Leftmost

/-!
# The braces of a reference

A reference with braces ends at the first closing brace behind its dollar sign, whatever stands in
between. So its text has one closing brace, and it is balanced just if no other brace is opened in
the word; then the brace at its end is the one that closes its own.

* `ReferenceForm.Begins.exists_body` — what stands between the braces
* `ClosedByLast` — the last brace of a text closes the first one
* `Reference.exists_form_of_mem_find` — references are forms that are written down
* `Reference.balanced_iff_of_mem_find` — the references that are balanced
-/

namespace Dockerfile

/-! ## Forms with braces -/

namespace ReferenceForm

/-- The word of a form, which is empty if there is none. -/
def word : ReferenceForm → List Char
  | .withWord _ _ word => word
  | _ => []

theorem brace_not_mem_of_isName {name : List Char} (h : IsName name) :
    '{' ∉ name ∧ '}' ∉ name :=
  ⟨fun hmem => absurd (h.isNameChar_of_mem _ hmem) (by decide),
    fun hmem => absurd (h.isNameChar_of_mem _ hmem) (by decide)⟩

/-- **A form with braces has one closing brace, at its end**, and between the braces there are the
opening ones of the word. -/
theorem Begins.exists_body {f : ReferenceForm} {s : List Char} (h : f.Begins s)
    (hbraced : ['$', '{'] <+: f.source) :
    ∃ body, f.source = '$' :: '{' :: (body ++ ['}']) ∧ '}' ∉ body
      ∧ body.count '{' = f.word.count '{' := by
  cases h with
  | bare hname =>
    obtain ⟨tail, heq⟩ := hbraced
    obtain ⟨-, heq⟩ := List.cons.inj heq
    exact absurd (heq ▸ List.mem_cons_self ..) (brace_not_mem_of_isName hname).1
  | @braced name _ hname =>
    obtain ⟨hopen, hclose⟩ := brace_not_mem_of_isName hname
    exact ⟨name, rfl, hclose, List.count_eq_zero_of_not_mem hopen⟩
  | @withWord name word _ operator hname hoperator hword =>
    obtain ⟨hopen, hclose⟩ := brace_not_mem_of_isName hname
    refine ⟨name ++ ':' :: operator :: word, by simp [source], ?_, ?_⟩
    · rcases hoperator with rfl | rfl | rfl <;> simp [hclose, hword]
    · rw [List.count_append, List.count_eq_zero_of_not_mem hopen]
      rcases hoperator with rfl | rfl | rfl <;> simp [ReferenceForm.word]

end ReferenceForm

/-! ## Balanced texts -/

/-- The last character of a text that starts with a dollar sign and an opening brace closes this
brace: there are as many closing ones as opening ones, and fewer in front of each place inside. -/
def ClosedByLast (t : List Char) : Prop :=
  t.count '{' = t.count '}' ∧
    ∀ n, 2 ≤ n → n < t.length → (t.take n).count '}' < (t.take n).count '{'

section Body

variable {body : List Char} (hbody : '}' ∉ body)

theorem count_open_body : ('$' :: '{' :: (body ++ ['}'])).count '{' = body.count '{' + 1 := by
  simp [List.count_append]

include hbody

theorem count_close_body : ('$' :: '{' :: (body ++ ['}'])).count '}' = 1 := by
  simp [List.count_append, List.count_eq_zero_of_not_mem hbody]

theorem balanced_body_iff : ('$' :: '{' :: (body ++ ['}'])).count '{'
    = ('$' :: '{' :: (body ++ ['}'])).count '}' ↔ '{' ∉ body := by
  rw [count_open_body, count_close_body hbody, Nat.add_eq_right, List.count_eq_zero]

/-- In front of the last brace the first one is open. -/
theorem count_take_body {n : Nat} (hn : 2 ≤ n) (hlt : n < ('$' :: '{' :: (body ++ ['}'])).length) :
    (('$' :: '{' :: (body ++ ['}'])).take n).count '}'
      < (('$' :: '{' :: (body ++ ['}'])).take n).count '{' := by
  obtain ⟨m, rfl⟩ := Nat.exists_eq_add_of_le' hn
  have hm : m ≤ body.length := by
    simp only [List.length_cons, List.length_append, List.length_nil] at hlt
    omega
  have hnone : '}' ∉ body.take m := fun hmem => hbody (List.mem_of_mem_take hmem)
  rw [List.take_succ_cons, List.take_succ_cons, List.take_append_of_le_length hm]
  simp [List.count_eq_zero_of_not_mem hnone]

theorem closedByLast_body_iff : ClosedByLast ('$' :: '{' :: (body ++ ['}'])) ↔ '{' ∉ body := by
  constructor
  · intro h
    exact (balanced_body_iff hbody).mp h.1
  · intro h
    exact ⟨(balanced_body_iff hbody).mpr h, fun n hn hlt => count_take_body hbody hn hlt⟩

end Body

namespace Reference

/-- The characters of a reference in the text that it has been found in. -/
def slice (r : Reference) (offset : Nat) (s : List Char) : List Char :=
  (s.drop (r.start - offset)).take (r.stop - r.start)

variable {escape s : List Char} {line offset : Nat} {r : Reference}

/-- **A reference stands where a form of its name begins**, and stops behind it. -/
theorem exists_form_of_mem_find (h : r ∈ find escape line offset s) :
    ∃ (f : ReferenceForm) (front back : List Char), s = front ++ (f.source ++ back)
      ∧ f.Begins (f.source ++ back) ∧ f.name = r.name ∧ r.start = offset + front.length
      ∧ r.stop = r.start + f.source.length := by
  obtain ⟨ms, hms, -⟩ := exists_leftmost_find escape line offset s
  obtain ⟨⟨i, f⟩, hm, -, rfl⟩ := (mem_find_iff hms).mp h
  have hbegins : f.Begins (s.drop i) := (hms.of_mem hm).2
  obtain ⟨tail, back, hdrop, hread⟩ := ReferenceForm.begins_iff.mp hbegins
  have hsource : s.drop i = f.source ++ back := by
    rw [hdrop, ReferenceForm.afterDollar?_append hread]
  have hle : i ≤ s.length := by
    by_contra hlt
    rw [List.drop_eq_nil_of_le (by omega)] at hdrop
    cases hdrop
  refine ⟨f, s.take i, back, ?_, hsource ▸ hbegins, rfl, ?_, rfl⟩
  · rw [← hsource, List.take_append_drop]
  · show offset + i = _
    rw [List.length_take_of_le hle]

/-- The characters of a reference are those of a form. -/
theorem exists_slice_eq (h : r ∈ find escape line offset s) :
    ∃ f : ReferenceForm, f.Begins (s.drop (r.start - offset)) ∧ f.name = r.name
      ∧ r.slice offset s = f.source := by
  obtain ⟨f, front, back, rfl, hbegins, hname, hstart, hstop⟩ := exists_form_of_mem_find h
  have hdrop : (front ++ (f.source ++ back)).drop (r.start - offset) = f.source ++ back := by
    rw [hstart, Nat.add_sub_cancel_left, List.drop_left]
  refine ⟨f, by rwa [hdrop], hname, ?_⟩
  rw [slice, hdrop, hstop, Nat.add_sub_cancel_left, List.take_left]

/-- **The references with braces that are balanced**: a reference ends at the first closing brace,
so there are as many closing ones as opening ones, and the last one closes its own, just if its word
opens none. -/
theorem balanced_iff_of_mem_find (h : r ∈ find escape line offset s)
    (hbraced : ['$', '{'] <+: r.slice offset s) :
    (r.slice offset s).count '}' = 1 ∧ (r.slice offset s).getLast? = some '}'
      ∧ ∃ f : ReferenceForm, f.Begins (s.drop (r.start - offset)) ∧ f.name = r.name
        ∧ r.slice offset s = f.source
        ∧ ((r.slice offset s).count '{' = (r.slice offset s).count '}' ↔ '{' ∉ f.word)
        ∧ (ClosedByLast (r.slice offset s) ↔ '{' ∉ f.word) := by
  obtain ⟨f, hbegins, hname, hslice⟩ := exists_slice_eq h
  rw [hslice] at hbraced
  obtain ⟨body, hsource, hbody, hcount⟩ := hbegins.exists_body hbraced
  have hopen : '{' ∉ body ↔ '{' ∉ f.word := by
    rw [← List.count_eq_zero, hcount, List.count_eq_zero]
  rw [hslice, hsource]
  exact ⟨count_close_body hbody, by simp [List.getLast?_cons], f, hbegins, hname, hsource.symm,
    (balanced_body_iff hbody).trans hopen, (closedByLast_body_iff hbody).trans hopen⟩

/-- `${a:-$b}` is balanced: no brace is opened in its word. -/
theorem balanced_of_mem_find_word :
    let s := "$\x7ba:-$b\x7d".toList
    ∃ r ∈ find ['\\'] 0 0 s, ClosedByLast (r.slice 0 s) := by
  intro s
  let r : Reference := ⟨['a'], 0, 8, 0⟩
  have hr : r ∈ find ['\\'] 0 0 s := by decide +kernel
  have hbraced : ['$', '{'] <+: r.slice 0 s := by decide +kernel
  obtain ⟨-, -, f, hbegins, -, -, -, hclosed⟩ := balanced_iff_of_mem_find hr hbraced
  have hword : f = .withWord ['a'] '-' ['$', 'b'] := hbegins.unique (by decide +kernel)
  exact ⟨r, hr, hclosed.mpr (by rw [hword]; decide)⟩

/-- `${a:-${b}}` is cut at the closing brace of the reference in its word. -/
theorem not_balanced_of_mem_find_nested :
    let s := "$\x7ba:-$\x7bb\x7d\x7d".toList
    ∃ r ∈ find ['\\'] 0 0 s, r.slice 0 s = "$\x7ba:-$\x7bb\x7d".toList
      ∧ (r.slice 0 s).count '{' = 2 ∧ (r.slice 0 s).count '}' = 1 :=
  ⟨⟨['a'], 0, 9, 0⟩, by decide +kernel⟩

end Reference

end Dockerfile
