import Dockerfile.CommandLine.Arguments

/-!
# Requests for help

A request for help is granted as soon as it is met. What stands behind it is not taken any more, so
it can be anything but an ambiguous option, as those are looked for before anything is taken.

* `Request.parse_eq_help_iff` — help is what is asked for
* `Request.parse_append_of_help` — the arguments behind a request for help
-/

namespace Dockerfile

theorem exists_of_bind_eq_ok {ε α β : Type} {x : Except ε α} {f : α → Except ε β} {b : β}
    (h : (x >>= f) = .ok b) : ∃ a, x = .ok a ∧ f a = .ok b := by
  cases x with
  | error e => cases h
  | ok a => exact ⟨a, rfl, h⟩

namespace Reading

/-- A step that goes on to a request for help goes on to it with more words behind. -/
theorem bind_run_append {taken : Except UsageError Reading} {r' : Reading} {words more : List Word}
    (h : (taken >>= fun r => r.run words) = .ok r')
    (hrun : ∀ r : Reading, r.run words = .ok r' → r.run (words ++ more) = .ok r') :
    (taken >>= fun r => r.run (words ++ more)) = .ok r' := by
  obtain ⟨r, rfl, h⟩ := exists_of_bind_eq_ok h
  exact hrun r h

/-- **The words behind a request for help are not taken.** -/
theorem run_append_of_help {r r' : Reading} {words : List Word} (h : r.run words = .ok r')
    (hhelp : r'.help = true) (more : List Word) : r.run (words ++ more) = .ok r' := by
  fun_induction Reading.run r words with
  | case1 words r hr =>
    rw [run.eq_def, if_pos hr]
    exact h
  | case2 r hr =>
    obtain rfl := Except.ok.inj h
    exact absurd hhelp hr
  | case3 r hr s words ih | case5 r hr o attached words ih =>
    rw [List.cons_append, run, if_neg hr]
    exact bind_run_append h ih
  | case4 r hr s words ih =>
    rw [List.cons_append, run, if_neg hr]
    exact ih h
  | case6 r hr o value words ho ih =>
    rw [List.cons_append, run, if_neg hr]
    exact (if_pos ho).trans (ih h)
  | case7 | case9 => cases h
  | case8 r hr o ho value words ih =>
    rw [List.cons_append, List.cons_append, run, if_neg hr]
    exact (if_pos ho).trans (ih h)
  | case10 r hr o words ho ih =>
    rw [List.cons_append, run.eq_def, if_neg hr]
    exact (if_neg ho).trans (ih h)

end Reading

/-- Arguments of which none is an ambiguous option are words. -/
theorem Word.exists_mapM_ofArgument {arguments : List (List Char)}
    (h : ∀ s ∈ arguments, ∃ w, ofArgument s = .ok w) :
    ∃ words, arguments.mapM ofArgument = .ok words := by
  induction arguments with
  | nil => exact ⟨[], rfl⟩
  | cons s more ih =>
    obtain ⟨w, hw⟩ := h s List.mem_cons_self
    obtain ⟨words, hwords⟩ := ih fun s hs => h s (List.mem_cons_of_mem _ hs)
    refine ⟨w :: words, ?_⟩
    rw [List.mapM_cons, hw, hwords]
    rfl

namespace Request

variable {arguments more : List (List Char)}

/-- **Help is what is asked for** if no option is ambiguous and the words lead to a request for
it. -/
theorem parse_eq_help_iff : parse arguments = .ok .help
    ↔ ∃ words r, (arguments.takeWhile (· != separator)).mapM Word.ofArgument = .ok words
      ∧ Reading.initial.run words = .ok r ∧ r.help = true := by
  constructor
  · intro h
    unfold parse at h
    obtain ⟨words, hwords, h⟩ := exists_of_bind_eq_ok h
    obtain ⟨r, hrun, h⟩ := exists_of_bind_eq_ok h
    cases hhelp : r.help with
    | true => exact ⟨words, r, hwords, hrun, hhelp⟩
    | false =>
      rw [hhelp] at h
      obtain ⟨i, -, h⟩ := exists_of_bind_eq_ok h
      cases h
  · rintro ⟨words, r, hwords, hrun, hhelp⟩
    simp only [parse, hwords, hrun, hhelp, bind, Except.bind]
    rfl

/-- **What stands behind a request for help** is not looked at but for ambiguous options. -/
theorem parse_append_of_help (h : parse arguments = .ok .help)
    (hmore : ∀ s ∈ more.takeWhile (· != separator), ∃ w, Word.ofArgument s = .ok w) :
    parse (arguments ++ more) = .ok .help := by
  obtain ⟨words, r, hwords, hrun, hhelp⟩ := parse_eq_help_iff.mp h
  rw [parse_eq_help_iff, List.takeWhile_append]
  split
  next hlength =>
    -- no separator is in front, so the options behind count, too
    obtain ⟨words', hwords'⟩ := Word.exists_mapM_ofArgument hmore
    have hall := (List.takeWhile_prefix (· != separator)).eq_of_length hlength
    rw [hall] at hwords
    refine ⟨words ++ words', r, ?_, Reading.run_append_of_help hrun hhelp words', hhelp⟩
    rw [List.mapM_append, hwords, hwords']
    rfl
  · exact ⟨words, r, hwords, hrun, hhelp⟩

example : parse ["--foo".toList, "-h".toList, "--docs".toList] = .ok .help := rfl

/-- A place that cannot be read is met before the request. -/
example : parse ["f".toList, "zero".toList, "-h".toList] = .error (.badPosition "zero".toList) :=
  rfl

end Request

end Dockerfile
