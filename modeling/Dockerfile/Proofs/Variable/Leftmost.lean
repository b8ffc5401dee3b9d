import Mathlib.Data.List.Basic
import Mathlib.Data.List.Induction
import Dockerfile.Proofs.Variable.Spans

/-!
# The search for references is a leftmost scan

A scan of a text takes the first form that begins at or behind a place, and goes on behind it. What
it takes are the matches of the text. The search returns those that are not escaped; an escaped one
is a match all the same, and what stands inside of it is not looked at.

* `Leftmost` — the matches of a text from a place on
* `Leftmost.unique`, `Leftmost.mem_or_inside` — they are determined, and no form is missed
* `Reference.exists_leftmost_search` — the search, from any place on
* `Reference.find_leftmost` — the references in a text
* `Reference.mem_find_iff_of_unescaped` — which references an escaped one hides
-/

namespace Dockerfile

/-! ## Matches -/

/-- The forms that are found in a text from an offset on, each with its own offset. -/
inductive Leftmost (s : List Char) : Nat → List (Nat × ReferenceForm) → Prop
  /-- No form begins at or behind the offset. -/
  | none {i : Nat} (hnone : ∀ k, i ≤ k → ∀ f : ReferenceForm, ¬f.Begins (s.drop k)) :
    Leftmost s i []
  /-- The first form that begins at or behind the offset, and then those behind its end. -/
  | next {i j : Nat} {f : ReferenceForm} {more : List (Nat × ReferenceForm)} (hle : i ≤ j)
    (hfirst : ∀ k, i ≤ k → k < j → ∀ g : ReferenceForm, ¬g.Begins (s.drop k))
    (hbegins : f.Begins (s.drop j)) (hmore : Leftmost s (j + f.source.length) more) :
    Leftmost s i ((j, f) :: more)

namespace Leftmost

variable {s : List Char} {i : Nat} {ms : List (Nat × ReferenceForm)}

/-- A place where no form begins can be passed over. -/
theorem step (hi : ∀ f : ReferenceForm, ¬f.Begins (s.drop i)) (h : Leftmost s (i + 1) ms) :
    Leftmost s i ms := by
  have hpass : ∀ {k}, i ≤ k → (∀ f : ReferenceForm, ¬f.Begins (s.drop k)) ∨ i + 1 ≤ k := by
    intro k hk
    by_cases hik : i = k
    · exact Or.inl (hik ▸ hi)
    · exact Or.inr (by omega)
  cases h with
  | none hnone => exact .none fun k hk => (hpass hk).elim id (hnone k)
  | next hle hfirst hbegins hmore =>
    exact .next (by omega) (fun k hk hkj => (hpass hk).elim id fun h => hfirst k h hkj) hbegins
      hmore

/-- A form right at the place is the next match. -/
theorem next_here {front tail rest : List Char} {f : ReferenceForm}
    (hform : ReferenceForm.afterDollar? tail = some (f, rest))
    (h : Leftmost (front ++ '$' :: tail) (front ++ f.source).length ms) :
    Leftmost (front ++ '$' :: tail) front.length ((front.length, f) :: ms) := by
  rw [List.length_append] at h
  have hbegins : f.Begins ((front ++ '$' :: tail).drop front.length) := by
    rw [List.drop_left]
    exact ReferenceForm.begins_cons_iff.mpr ⟨rfl, rest, hform⟩
  exact .next (Nat.le_refl _) (fun k hk hlt => absurd hlt (by omega)) hbegins h

/-- **The matches of a text are determined.** -/
theorem unique {ns : List (Nat × ReferenceForm)} (h : Leftmost s i ms) (h' : Leftmost s i ns) :
    ms = ns := by
  induction h generalizing ns with
  | none hnone =>
    cases h' with
    | none => rfl
    | next hle _ hbegins _ => exact absurd hbegins (hnone _ hle _)
  | @next i j f more hle hfirst hbegins _ ih =>
    cases h' with
    | none hnone => exact absurd hbegins (hnone _ hle _)
    | @next _ j' g more' hle' hfirst' hbegins' hmore' =>
      have hj : j = j' := by
        rcases Nat.lt_trichotomy j j' with hlt | heq | hgt
        · exact absurd hbegins (hfirst' _ hle hlt _)
        · exact heq
        · exact absurd hbegins' (hfirst _ hle' hgt _)
      obtain rfl := hj
      obtain rfl := hbegins.unique hbegins'
      rw [ih hmore']

/-- A match is a form that begins at its offset. -/
theorem of_mem (h : Leftmost s i ms) {m : Nat × ReferenceForm} (hm : m ∈ ms) :
    i ≤ m.1 ∧ m.2.Begins (s.drop m.1) := by
  induction h with
  | none => cases hm
  | next hle _ hbegins _ ih =>
    rcases List.mem_cons.mp hm with rfl | hm
    · exact ⟨hle, hbegins⟩
    · exact ⟨by have := (ih hm).1; omega, (ih hm).2⟩

/-- Each match ends at or in front of the start of the next one. -/
theorem sorted (h : Leftmost s i ms) :
    ms.Pairwise (fun a b => a.1 + a.2.source.length ≤ b.1) := by
  induction h with
  | none => exact List.Pairwise.nil
  | next _ _ _ hmore ih => exact List.pairwise_cons.mpr ⟨fun m hm => (hmore.of_mem hm).1, ih⟩

/-- A match that starts in front of another one ends there or in front of it. -/
theorem stop_le_of_lt (h : Leftmost s i ms) {m n : Nat × ReferenceForm} (hm : m ∈ ms)
    (hn : n ∈ ms) (hlt : m.1 < n.1) : m.1 + m.2.source.length ≤ n.1 := by
  have hsorted := h.sorted
  have hlater : ms.Pairwise fun a b => a.1 < b.1 → a.1 + a.2.source.length ≤ b.1 := by
    refine hsorted.imp ?_
    intro a b hab _
    exact hab
  have hearlier : ms.Pairwise fun a b => b.1 < a.1 → b.1 + b.2.source.length ≤ a.1 := by
    refine hsorted.imp ?_
    intro a b hab hba
    omega
  exact List.Pairwise.forall_of_forall_of_flip (fun _ _ hself => absurd hself (Nat.lt_irrefl _))
    hlater hearlier hm hn hlt

/-- **No form is missed**: one that is not a match begins inside of a match. -/
theorem mem_or_inside (h : Leftmost s i ms) {k : Nat} (hk : i ≤ k) {f : ReferenceForm}
    (hf : f.Begins (s.drop k)) :
    (k, f) ∈ ms ∨ ∃ m ∈ ms, m.1 < k ∧ k < m.1 + m.2.source.length := by
  induction h with
  | none hnone => exact absurd hf (hnone k hk f)
  | @next i j g more hle hfirst hbegins _ ih =>
    rcases Nat.lt_trichotomy k j with hlt | rfl | hgt
    · exact absurd hf (hfirst k hk hlt f)
    · obtain rfl := hf.unique hbegins
      exact Or.inl (List.mem_cons_self ..)
    · by_cases hinside : k < j + g.source.length
      · exact Or.inr ⟨(j, g), List.mem_cons_self .., hgt, hinside⟩
      · rcases ih (by omega) with hmem | ⟨m, hm, hspan⟩
        · exact Or.inl (List.mem_cons_of_mem _ hmem)
        · exact Or.inr ⟨m, List.mem_cons_of_mem _ hm, hspan⟩

theorem nil_iff :
    Leftmost s i [] ↔ ∀ k < s.length, i ≤ k → ∀ f : ReferenceForm, ¬f.Begins (s.drop k) := by
  constructor
  · rintro ⟨hnone⟩ k - hk
    exact hnone k hk
  · intro h
    refine .none fun k hk f hf => ?_
    by_cases hlt : k < s.length
    · exact h k hlt hk f hf
    · rw [List.drop_eq_nil_of_le (by omega)] at hf
      exact ReferenceForm.not_begins_nil hf

theorem cons_iff {j : Nat} {f : ReferenceForm} : Leftmost s i ((j, f) :: ms)
    ↔ i ≤ j ∧ (∀ k < j, i ≤ k → ∀ g : ReferenceForm, ¬g.Begins (s.drop k)) ∧ f.Begins (s.drop j)
      ∧ Leftmost s (j + f.source.length) ms := by
  constructor
  · rintro (_ | ⟨hle, hfirst, hbegins, hmore⟩)
    exact ⟨hle, fun k hlt hk => hfirst k hk hlt, hbegins, hmore⟩
  · rintro ⟨hle, hfirst, hbegins, hmore⟩
    exact .next hle (fun k hk hlt => hfirst k hlt hk) hbegins hmore

instance decidable (s : List Char) :
    ∀ (i : Nat) (ms : List (Nat × ReferenceForm)), Decidable (Leftmost s i ms)
  | _, [] => decidable_of_iff _ nil_iff.symm
  | _, (j, f) :: ms =>
    have := decidable s (j + f.source.length) ms
    decidable_of_iff _ cons_iff.symm

end Leftmost

/-! ## The search -/

/-- The escape text is one character, and it stands right in front of an offset. -/
def EscapedAt (escape s : List Char) (i : Nat) : Prop :=
  0 < i ∧ ∃ c, s[i - 1]? = some c ∧ escape = [c]

instance decidableEscapedAt (escape s : List Char) (i : Nat) : Decidable (EscapedAt escape s i) :=
  decidable_of_iff (0 < i ∧ s[i - 1]?.map (fun c => [c]) = some escape) <| by
    rw [Option.map_eq_some_iff]
    exact and_congr_right fun _ => exists_congr fun c => and_congr_right fun _ => eq_comm

/-- The last character that has been passed tells whether the next offset is escaped. -/
theorem escapedAt_length_iff {escape front : List Char} (s : List Char) :
    EscapedAt escape (front ++ s) front.length
      ↔ Reference.isEscaped escape front.getLast? = true := by
  cases front using List.reverseRecOn with
  | nil => simp [EscapedAt, Reference.isEscaped]
  | append_singleton init c =>
    have hlast : (init ++ [c] ++ s)[(init ++ [c]).length - 1]? = some c := by simp
    have hpos : 0 < (init ++ [c]).length := by simp
    rw [EscapedAt, hlast, List.getLast?_concat, Reference.isEscaped, Option.any_some, beq_iff_eq]
    constructor
    · rintro ⟨-, d, hd, rfl⟩
      rw [Option.some.inj hd]
    · rintro rfl
      exact ⟨hpos, c, rfl, rfl⟩

namespace Reference

/-- The reference of a match in a text that starts at an offset of a line. -/
def ofMatch (line offset : Nat) (m : Nat × ReferenceForm) : Reference :=
  ⟨m.2.name, offset + m.1, offset + m.1 + m.2.source.length, line⟩

variable {escape : List Char} {line offset : Nat} {s : List Char}

/-- The last character of a text that ends with a form is that of the form. -/
theorem getLast?_append_source (front : List Char) (f : ReferenceForm) :
    (front ++ f.source).getLast? = f.source.getLast? :=
  List.getLast?_append_of_ne_nil _ (List.ne_nil_of_length_pos f.source_length_pos)

/-- **The search takes the matches from a place on and returns those that are not escaped.** In
front of the place stands the text that has been passed. -/
theorem exists_leftmost_search {front s : List Char} {previous : Option Char} {place : Nat}
    (hprevious : previous = front.getLast?) (hplace : place = offset + front.length) :
    ∃ ms, Leftmost (front ++ s) front.length ms ∧ search escape line previous place s
      = (ms.filter fun m => ¬EscapedAt escape (front ++ s) m.1).map (ofMatch line offset) := by
  -- each step passes a character or a form, which then stands in front
  fun_induction search escape line previous place s generalizing front
  case case1 =>
    refine ⟨[], .none fun k hk f => ?_, rfl⟩
    rw [List.drop_eq_nil_of_le (by simpa using hk)]
    exact ReferenceForm.not_begins_nil
  case case2 previous place s hform ih =>
    obtain ⟨ms, hms, hsearch⟩ := @ih (front ++ ['$']) (by simp) (by simp; omega)
    rw [List.append_assoc] at hms hsearch
    refine ⟨ms, .step ?_ (by simpa using hms), hsearch⟩
    rw [List.drop_left]
    exact ReferenceForm.forall_not_begins_cons_iff.mpr fun _ => hform
  case case3 previous place s form rest hform stop more hescaped ih =>
    obtain ⟨ms, hms, hsearch⟩ := @ih (front ++ form.source) (getLast?_append_source ..).symm
      (by rw [List.length_append]; omega)
    rw [List.append_assoc, ReferenceForm.afterDollar?_append hform] at hms hsearch
    rw [hprevious, ← escapedAt_length_iff ('$' :: s)] at hescaped
    refine ⟨_, .next_here hform hms, ?_⟩
    rw [List.filter_cons_of_neg (by simpa using hescaped)]
    exact hsearch
  case case4 previous place s form rest hform stop more hescaped ih =>
    obtain ⟨ms, hms, hsearch⟩ := @ih (front ++ form.source) (getLast?_append_source ..).symm
      (by rw [List.length_append]; omega)
    rw [List.append_assoc, ReferenceForm.afterDollar?_append hform] at hms hsearch
    rw [hprevious, ← escapedAt_length_iff ('$' :: s)] at hescaped
    refine ⟨_, .next_here hform hms, ?_⟩
    rw [List.filter_cons_of_pos (by simpa using hescaped), List.map_cons, ← hsearch, ofMatch,
      ← hplace]
  case case5 previous place c s hc ih =>
    obtain ⟨ms, hms, hsearch⟩ := @ih (front ++ [c]) (by simp) (by simp; omega)
    rw [List.append_assoc] at hms hsearch
    refine ⟨ms, .step ?_ (by simpa using hms), hsearch⟩
    rw [List.drop_left]
    exact ReferenceForm.forall_not_begins_cons_iff.mpr fun h => absurd h hc

/-- A text has matches, and the references in it are those that are not escaped. -/
theorem exists_leftmost_find (escape : List Char) (line offset : Nat) (s : List Char) :
    ∃ ms, Leftmost s 0 ms ∧ find escape line offset s
      = (ms.filter fun m => ¬EscapedAt escape s m.1).map (ofMatch line offset) :=
  @exists_leftmost_search escape line offset [] s none offset rfl rfl

variable {ms : List (Nat × ReferenceForm)}

/-- A reference in a text is that of a match that is not escaped. -/
theorem mem_find_iff (h : Leftmost s 0 ms) {r : Reference} : r ∈ find escape line offset s
    ↔ ∃ m ∈ ms, ¬EscapedAt escape s m.1 ∧ ofMatch line offset m = r := by
  obtain ⟨ns, hns, hfind⟩ := exists_leftmost_find escape line offset s
  obtain rfl := h.unique hns
  rw [hfind]
  simp only [List.mem_map, List.mem_filter, decide_eq_true_eq, and_assoc]

/-- **The references in a text are those of its leftmost matches that are not escaped.** So they
stand one behind the other, each one is a form of its name that is written down there, and a form
that is not a match begins inside of a match, never behind a dollar sign that begins none. -/
theorem find_leftmost (escape : List Char) (line offset : Nat) (s : List Char) :
    ∃ ms, Leftmost s 0 ms ∧ (∀ ns, Leftmost s 0 ns → ns = ms)
      ∧ find escape line offset s
        = (ms.filter fun m => ¬EscapedAt escape s m.1).map (ofMatch line offset)
      ∧ (find escape line offset s).Pairwise (fun a b => a.start < b.start ∧ a.stop ≤ b.start)
      ∧ (∀ r ∈ find escape line offset s, r.line = line ∧ ∃ i f, r.start = offset + i
        ∧ ReferenceForm.Begins f (s.drop i) ∧ ¬EscapedAt escape s i ∧ r.name = f.name
        ∧ r.stop = r.start + f.source.length ∧ (s.drop i).take f.source.length = f.source)
      ∧ ∀ k f, ReferenceForm.Begins f (s.drop k) → (k, f) ∈ ms
        ∨ ∃ m ∈ ms, m.2.Begins (s.drop m.1) ∧ m.1 < k ∧ k < m.1 + m.2.source.length := by
  obtain ⟨ms, hms, hfind⟩ := exists_leftmost_find escape line offset s
  refine ⟨ms, hms, fun ns hns => hns.unique hms, hfind, ?_, ?_, ?_⟩
  · refine List.Pairwise.imp_of_mem (fun ha _ hab => ⟨?_, hab⟩) sorted_find
    have hspan := span_of_mem_find ha
    omega
  · intro r hr
    obtain ⟨m, hm, hescaped, rfl⟩ := (mem_find_iff hms).mp hr
    have hbegins := (hms.of_mem hm).2
    exact ⟨rfl, m.1, m.2, rfl, hbegins, hescaped, rfl, rfl, hbegins.take_eq⟩
  · intro k f hf
    rcases hms.mem_or_inside (Nat.zero_le k) hf with hmem | ⟨m, hm, hspan⟩
    · exact Or.inl hmem
    · exact Or.inr ⟨m, hm, (hms.of_mem hm).2, hspan⟩

/-- `$1$a\$b`: no form begins at the first dollar sign, and the last one is escaped. -/
theorem find_leftmost_second_dollar :
    let s := "$1$a\\$b".toList
    ∃ ms, Leftmost s 0 ms ∧ (2, .bare ['a']) ∈ ms
      ∧ find ['\\'] 0 0 s = (ms.filter fun m => ¬EscapedAt ['\\'] s m.1).map (ofMatch 0 0) := by
  intro s
  obtain ⟨ms, hms, hunique, hfind, -, -, hmissed⟩ := find_leftmost ['\\'] 0 0 s
  refine ⟨ms, hms, ?_, hfind⟩
  obtain rfl := hunique [(2, .bare ['a']), (5, .bare ['b'])] (by decide +kernel)
  have hbegins : ReferenceForm.Begins (.bare ['a']) (s.drop 2) := by decide +kernel
  rcases hmissed 2 _ hbegins with hmem | ⟨m, hm, -, hinside⟩
  · exact hmem
  · revert m
    decide

/-- **Which references an escaped one hides**: a form that is not escaped and not inside of a
reference is found just if it is not inside of an escaped match either. -/
theorem mem_find_iff_of_unescaped (h : Leftmost s 0 ms) {k : Nat} {f : ReferenceForm}
    (hf : f.Begins (s.drop k)) (hk : ¬EscapedAt escape s k)
    (hout : ∀ r ∈ find escape line offset s, ¬(r.start < offset + k ∧ offset + k < r.stop)) :
    (∃ r ∈ find escape line offset s, r.start = offset + k)
      ↔ ∀ m ∈ ms, EscapedAt escape s m.1 → ¬(m.1 < k ∧ k < m.1 + m.2.source.length) := by
  constructor
  · rintro ⟨r, hr, hstart⟩ m hm - ⟨hlt, hgt⟩
    obtain ⟨n, hn, -, rfl⟩ := (mem_find_iff h).mp hr
    obtain rfl : n.1 = k := Nat.add_left_cancel hstart
    have := h.stop_le_of_lt hm hn hlt
    omega
  · intro hescaped
    rcases h.mem_or_inside (Nat.zero_le k) hf with hmem | ⟨m, hm, hspan⟩
    · exact ⟨_, (mem_find_iff h).mpr ⟨_, hmem, hk, rfl⟩, rfl⟩
    · by_cases hm' : EscapedAt escape s m.1
      · exact absurd hspan (hescaped m hm hm')
      · refine absurd ?_ (hout _ ((mem_find_iff h).mpr ⟨m, hm, hm', rfl⟩))
        show offset + m.1 < offset + k ∧ offset + k < offset + m.1 + m.2.source.length
        omega

/-- Behind `\${a:-$b}`, which is escaped as a whole, the next reference is found. -/
theorem mem_find_iff_of_unescaped_behind :
    let s := "\\$\x7ba:-$b\x7d $c".toList
    ∃ r ∈ find ['\\'] 0 0 s, r.start = 0 + 10 := by
  intro s
  have hms : Leftmost s 0 [(1, .withWord ['a'] '-' ['$', 'b']), (10, .bare ['c'])] := by
    decide +kernel
  have hbegins : ReferenceForm.Begins (.bare ['c']) (s.drop 10) := by decide +kernel
  exact (mem_find_iff_of_unescaped hms hbegins (by decide +kernel) (by decide +kernel)).mpr
    (by decide +kernel)

/-- In `\${a:-$b}` a form begins that is not escaped, and nothing is found. -/
theorem find_hides_unescaped :
    let s := "\\$\x7ba:-$b\x7d".toList
    ReferenceForm.Begins (.bare ['b']) (s.drop 6) ∧ ¬EscapedAt ['\\'] s 6
      ∧ find ['\\'] 0 0 s = [] := by
  decide +kernel

end Reference

end Dockerfile
