import Dockerfile.CommandLine.Arguments
import Dockerfile.Proofs.Text.IntegerLiteral

/-!
# Places on the command line

A place is written as two integer literals with a colon between them. Every other text is refused,
with a complaint that quotes it. What is written in decimal is read back, also with white space
around the numerals, the separators U+001C to U+001F excepted: these are white space, but none that
an integer may have around it.

* `read_decides` — the texts that are places, and what is said about the others
-/

namespace Dockerfile.Position

/-- The text is a place: two literals and a colon between them, the only one. -/
def IsPlace (s : List Char) (p : Position) : Prop :=
  ∃ line character, s = line ++ ':' :: character ∧ ':' ∉ line ∧ ':' ∉ character
    ∧ IsLiteral line p.line ∧ IsLiteral character p.character

/-- A text is cut at its first colon. -/
theorem takeWhile_dropWhile_colon {line : List Char} (h : ':' ∉ line) (character : List Char) :
    (line ++ ':' :: character).takeWhile (· != ':') = line
      ∧ ((line ++ ':' :: character).dropWhile (· != ':')).drop 1 = character := by
  have hline : ∀ c ∈ line, (c != ':') = true := fun c hc => by
    simpa using fun hcolon : c = ':' => h (hcolon ▸ hc)
  rw [List.takeWhile_append_of_pos hline, List.dropWhile_append_of_pos hline]
  simp

/-- **Reading a place** succeeds exactly on the texts that are one. -/
theorem parse?_eq_some_iff {s : List Char} {p : Position} : parse? s = some p ↔ IsPlace s p := by
  constructor
  · intro h
    obtain ⟨hcount, h⟩ := Option.ite_none_right_eq_some.mp h
    obtain ⟨before, after, rfl, hbefore⟩ := List.eq_append_cons_of_mem
      (List.count_pos_iff.mp (hcount ▸ Nat.one_pos) : ':' ∈ s)
    obtain ⟨htake, hdrop⟩ := takeWhile_dropWhile_colon hbefore after
    rw [List.count_append, List.count_cons_self, List.count_eq_zero.mpr hbefore] at hcount
    simp only [htake, hdrop, Option.bind_eq_bind, Option.bind_eq_some_iff, Option.some.injEq,
      integer?_eq_some_iff] at h
    obtain ⟨line, hline, character, hcharacter, rfl⟩ := h
    exact ⟨before, after, rfl, hbefore, List.count_eq_zero.mp (by omega), hline, hcharacter⟩
  · rintro ⟨line, character, rfl, hline, hcharacter, hl, hc⟩
    obtain ⟨htake, hdrop⟩ := takeWhile_dropWhile_colon hline character
    have hcount : (line ++ ':' :: character).count ':' = 1 := by
      rw [List.count_append, List.count_cons_self, List.count_eq_zero.mpr hline,
        List.count_eq_zero.mpr hcharacter]
    rw [parse?, if_pos hcount, htake, hdrop, integer?_eq_some_iff.mpr hl,
      integer?_eq_some_iff.mpr hc]
    rfl

/-- What is read is the place, or else the whole text is complained about. -/
theorem read_eq (s : List Char) : (∃ p, parse? s = some p ∧ read s = .ok p)
    ∨ parse? s = none ∧ read s = .error (.badPosition s) := by
  unfold read
  cases parse? s with
  | none => exact Or.inr ⟨rfl, rfl⟩
  | some p => exact Or.inl ⟨p, rfl, rfl⟩

/-- White space that may stand around an integer: that of Unicode but four separators. -/
theorem isLiteralPadding_iff {c : Char} :
    isLiteralPadding c = true ↔ isUnicodeSpace c = true ∧ ¬ (0x1C ≤ c.toNat ∧ c.toNat ≤ 0x1F) := by
  simp only [isLiteralPadding, Bool.and_eq_true, Bool.not_eq_true', Bool.and_eq_false_iff,
    decide_eq_false_iff_not, not_and_or]

/--
**A place is read exactly from the texts that are one.**

It is two integer literals with a colon between them, and their values are read. Any other text is
an error, which quotes all of it. The decimal numerals of two integers with no more than 4300 digits
are such literals, whatever white space stands around them that is none of U+001C to U+001F.
-/
theorem read_decides :
    (∀ (s : List Char) (p : Position), read s = .ok p ↔ IsPlace s p)
      ∧ (∀ s : List Char, (∀ p, ¬ IsPlace s p) → read s = .error (.badPosition s)
        ∧ (UsageError.badPosition s).message = "not LINE:CHARACTER: ".toList ++ s)
      ∧ ∀ (l c : Int) (a b a' b' : List Char),
        (decimal l.natAbs).length ≤ 4300 → (decimal c.natAbs).length ≤ 4300 →
        (∀ x ∈ a ++ b ++ a' ++ b', isUnicodeSpace x = true ∧ ¬ (0x1C ≤ x.toNat ∧ x.toNat ≤ 0x1F)) →
        read (a ++ signedDecimal l ++ b ++ ':' :: (a' ++ signedDecimal c ++ b')) = .ok ⟨l, c⟩ := by
  have hread (s : List Char) (p : Position) : read s = .ok p ↔ IsPlace s p := by
    rw [← parse?_eq_some_iff]
    rcases read_eq s with ⟨q, hparse, hread⟩ | ⟨hparse, hread⟩
    · rw [hparse, hread, Except.ok.injEq, Option.some.injEq]
    · rw [hparse, hread]
      exact ⟨nofun, nofun⟩
  refine ⟨hread, fun s hs => ⟨?_, rfl⟩, fun l c a b a' b' hl hc hspace => ?_⟩
  · rcases read_eq s with ⟨p, hparse, -⟩ | ⟨-, hread⟩
    · exact absurd (parse?_eq_some_iff.mp hparse) (hs p)
    · exact hread
  · have hpadding (x : Char) (hx : x ∈ a ++ b ++ a' ++ b') : isLiteralPadding x = true :=
      isLiteralPadding_iff.mpr (hspace x hx)
    have hline : IsLiteral (a ++ signedDecimal l ++ b) l := isLiteral_decimal hl
      (fun x hx => hpadding x (by simp [hx])) fun x hx => hpadding x (by simp [hx])
    have hcharacter : IsLiteral (a' ++ signedDecimal c ++ b') c := isLiteral_decimal hc
      (fun x hx => hpadding x (by simp [hx])) fun x hx => hpadding x (by simp [hx])
    exact (hread _ _).mpr ⟨_, _, rfl, hline.colon_notMem, hcharacter.colon_notMem, hline,
      hcharacter⟩

/-- Signs, white space beyond ASCII, digits of another script, and a second colon. -/
theorem read_decides_negative :
    (decimal (-12 : Int).natAbs).length ≤ 4300 ∧ (decimal (7 : Int).natAbs).length ≤ 4300
      ∧ read ("\u00A0-12\u2003:7\n".toList) = .ok ⟨-12, 7⟩
      ∧ IsPlace "-\u0661_2:+7".toList ⟨-12, 7⟩
      ∧ (∀ p, ¬ IsPlace "1:2:3".toList p)
      ∧ read "1:2:3".toList = .error (.badPosition "1:2:3".toList) := by
  have hone : (decimal (-12 : Int).natAbs).length ≤ 4300 := by decide +kernel
  have hother : (decimal (7 : Int).natAbs).length ≤ 4300 := by decide +kernel
  have hthree : ∀ p, ¬ IsPlace "1:2:3".toList p := fun p hp =>
    nomatch (parse?_eq_some_iff.mpr hp).symm.trans (by decide : parse? "1:2:3".toList = none)
  refine ⟨hone, hother, ?_, ?_, hthree, (read_decides.2.1 _ hthree).1⟩
  · refine read_decides.2.2 (-12) 7 ['\u00A0'] ['\u2003'] [] ['\n'] hone hother fun x hx => ?_
    simp only [List.cons_append, List.nil_append, List.mem_cons, List.not_mem_nil, or_false] at hx
    rcases hx with rfl | rfl | rfl <;> decide
  · exact parse?_eq_some_iff.mp (by decide +kernel)

/-- The separator U+001C is white space, but no integer may have it around it. -/
theorem read_separator :
    isUnicodeSpace '\x1C' = true
      ∧ (decimal (1 : Int).natAbs).length ≤ 4300 ∧ (decimal (2 : Int).natAbs).length ≤ 4300
      ∧ ['\x1C'] ++ signedDecimal 1 ++ [] ++ ':' :: ([] ++ signedDecimal 2 ++ [])
        = "\x1C1:2".toList
      ∧ read "\x1C1:2".toList ≠ .ok ⟨1, 2⟩
      ∧ read "\x1C1:2".toList = .error (.badPosition "\x1C1:2".toList) := by
  have hparse : parse? "\x1C1:2".toList = none := by decide +kernel
  have hread : read "\x1C1:2".toList = .error (.badPosition "\x1C1:2".toList) := by
    rw [read, hparse]
  refine ⟨by decide, by decide +kernel, by decide +kernel, by decide +kernel, ?_, hread⟩
  rw [hread]
  nofun

end Dockerfile.Position
