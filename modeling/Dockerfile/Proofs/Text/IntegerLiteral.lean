import Mathlib.Data.List.Induction
import Mathlib.Data.List.TakeWhile
import Mathlib.Data.Nat.Digits.Defs
import Dockerfile.Text.IntegerLiteral
import Dockerfile.Text.Numeral

/-!
# Integer literals, read and written

    literal ::= space* ("+" | "-")? digit ("_"? digit)* space*

A text is read as an integer exactly if it is a literal that stands for it, and the decimal numeral
of every integer is such a literal if it is not too long, with padding around it or without.

* `integer?_eq_some_iff` — reading accepts the literals, and nothing else
* `isLiteral_decimal` — what is written is a literal
-/

namespace Dockerfile

/-! ## Digits -/

/-- The decimal digits of all scripts. -/
def digitChars : List Char :=
  zeroDigits.flatMap fun first => (List.range 10).map fun k => Char.ofNat (first + k)

theorem mem_digitChars {c : Char} {digit : Nat} (h : digitValue? c = some digit) :
    c ∈ digitChars := by
  obtain ⟨first, hfirst, rfl⟩ := Option.map_eq_some_iff.mp h
  have hrange := List.find?_some hfirst
  simp only [Bool.and_eq_true, decide_eq_true_eq] at hrange
  refine List.mem_flatMap.mpr ⟨first, List.mem_of_find?_eq_some hfirst, ?_⟩
  refine List.mem_map.mpr ⟨c.toNat - first, List.mem_range.mpr (by omega), ?_⟩
  rw [Nat.add_sub_cancel' hrange.1, Char.ofNat_toNat]

/-- What holds of every digit, checked digit by digit. -/
theorem of_digitValue? {p : Char → Bool} (h : digitChars.all p = true) {c : Char} {digit : Nat}
    (hc : digitValue? c = some digit) : p c = true :=
  List.all_eq_true.mp h c (mem_digitChars hc)

theorem isLiteralPadding_of_digitValue? {c : Char} {digit : Nat} (h : digitValue? c = some digit) :
    isLiteralPadding c = false := by
  simpa using of_digitValue? (p := fun c => !isLiteralPadding c) (by decide +kernel) h

theorem digitValue?_digitChar {digit : Nat} (h : digit < 10) :
    digitValue? (Nat.digitChar digit) = some digit := by
  have hall : ∀ d ∈ List.range 10, digitValue? (Nat.digitChar d) = some d := by decide +kernel
  exact hall digit (List.mem_range.mpr h)

/-! ## Numerals -/

/-- One digit after the other, with at most one underscore between two of them. -/
inductive Numeral : List Char → List Nat → Prop
  | last {c : Char} {digit : Nat} : digitValue? c = some digit → Numeral [c] [digit]
  | digit {c : Char} {digit : Nat} {s : List Char} {digits : List Nat} :
    digitValue? c = some digit → Numeral s digits → Numeral (c :: s) (digit :: digits)
  | underscore {c : Char} {digit : Nat} {s : List Char} {digits : List Nat} :
    digitValue? c = some digit → Numeral s digits → Numeral (c :: '_' :: s) (digit :: digits)

namespace Numeral

variable {s : List Char} {digits : List Nat}

/-- A numeral starts with a digit. -/
theorem head_isDigit (h : Numeral s digits) :
    ∃ c rest digit, s = c :: rest ∧ digitValue? c = some digit := by
  cases h with
  | last hc => exact ⟨_, _, _, rfl, hc⟩
  | digit hc _ => exact ⟨_, _, _, rfl, hc⟩
  | underscore hc _ => exact ⟨_, _, _, rfl, hc⟩

/-- A numeral ends with a digit. -/
theorem getLast_isDigit (h : Numeral s digits) :
    ∃ c front digit, s = front ++ [c] ∧ digitValue? c = some digit := by
  induction h with
  | last hc => exact ⟨_, [], _, rfl, hc⟩
  | digit _ _ ih =>
    obtain ⟨c, front, digit, rfl, hc⟩ := ih
    exact ⟨c, _ :: front, digit, rfl, hc⟩
  | underscore _ _ ih =>
    obtain ⟨c, front, digit, rfl, hc⟩ := ih
    exact ⟨c, _ :: _ :: front, digit, rfl, hc⟩

/-- A numeral holds digits and underscores. -/
theorem isDigit_or_underscore (h : Numeral s digits) {c : Char} (hc : c ∈ s) :
    c = '_' ∨ ∃ digit, digitValue? c = some digit := by
  induction h with
  | last hd =>
    obtain rfl := List.mem_singleton.mp hc
    exact Or.inr ⟨_, hd⟩
  | digit hd _ ih =>
    rcases List.mem_cons.mp hc with rfl | hc
    · exact Or.inr ⟨_, hd⟩
    · exact ih hc
  | underscore hd _ ih =>
    rcases List.mem_cons.mp hc with rfl | hc
    · exact Or.inr ⟨_, hd⟩
    rcases List.mem_cons.mp hc with rfl | hc
    · exact Or.inl rfl
    · exact ih hc

theorem concat (h : Numeral s digits) {c : Char} {digit : Nat} (hc : digitValue? c = some digit) :
    Numeral (s ++ [c]) (digits ++ [digit]) := by
  induction h with
  | last hd => exact .digit hd (.last hc)
  | digit hd _ ih => exact .digit hd ih
  | underscore hd _ ih => exact .underscore hd ih

end Numeral

/-- **The digits of a numeral** are what is read from it. -/
theorem numeralDigits?_eq_some_iff {s : List Char} {digits : List Nat} :
    numeralDigits? s = some digits ↔ Numeral s digits := by
  constructor
  · intro h
    fun_induction numeralDigits? s generalizing digits with
    | case1 => cases h
    | case2 c =>
      obtain ⟨digit, hc, rfl⟩ := Option.map_eq_some_iff.mp h
      exact .last hc
    | case3 c rest ih =>
      simp only [Option.bind_eq_bind, Option.bind_eq_some_iff] at h
      obtain ⟨digit, hc, digits, hrest, hdigits⟩ := h
      exact Option.some.inj hdigits ▸ .underscore hc (ih hrest)
    | case4 c rest _ _ ih =>
      simp only [Option.bind_eq_bind, Option.bind_eq_some_iff] at h
      obtain ⟨digit, hc, digits, hrest, hdigits⟩ := h
      exact Option.some.inj hdigits ▸ .digit hc (ih hrest)
  · intro h
    induction h with
    | last hc => rw [numeralDigits?, hc]; rfl
    | @digit c digit s digits hc hs ih =>
      obtain ⟨d, rest, _, rfl, hd⟩ := hs.head_isDigit
      rw [numeralDigits?, hc, ih]
      · rfl
      · nofun
      · rintro _ ⟨rfl, -⟩
        exact nomatch hd.symm.trans (by decide : digitValue? '_' = none)
    | underscore hc _ ih => rw [numeralDigits?, hc, ih]; rfl

/-- What digits stand for, read from the left. -/
theorem foldl_digits (digits : List Nat) :
    digits.foldl (fun n digit => 10 * n + digit) 0 = Nat.ofDigits 10 digits.reverse := by
  induction digits using List.reverseRecOn with
  | nil => rfl
  | append_singleton digits digit ih =>
    rw [List.foldl_append, ih, List.reverse_concat, Nat.ofDigits_cons]
    exact Nat.add_comm ..

theorem numeral?_eq_some_iff {s : List Char} {n : Nat} :
    numeral? s = some n ↔ ∃ digits, Numeral s digits ∧ digits.length ≤ maxDigits
      ∧ n = Nat.ofDigits 10 digits.reverse := by
  simp only [numeral?, Option.bind_eq_bind, Option.bind_eq_some_iff, numeralDigits?_eq_some_iff,
    Option.ite_none_right_eq_some, foldl_digits, Option.some.injEq, eq_comm (b := n)]

/-! ## Literals -/

/-- A sign, or none, in front of a number. -/
inductive Signed : List Char → Nat → Int → Prop
  | plain (n : Nat) : Signed [] n n
  | plus (n : Nat) : Signed ['+'] n n
  | minus (n : Nat) : Signed ['-'] n (-n)

/-- The text is a literal that stands for the integer. -/
def IsLiteral (s : List Char) (value : Int) : Prop :=
  ∃ before sign numeral after digits, s = before ++ (sign ++ numeral) ++ after
    ∧ (∀ c ∈ before, isLiteralPadding c = true) ∧ (∀ c ∈ after, isLiteralPadding c = true)
    ∧ Numeral numeral digits ∧ digits.length ≤ maxDigits
    ∧ Signed sign (Nat.ofDigits 10 digits.reverse) value

/-- Padding is taken off both ends of a text. -/
theorem exists_padding (s : List Char) : ∃ before after, s = before ++ unpadded s ++ after
    ∧ (∀ c ∈ before, isLiteralPadding c = true) ∧ ∀ c ∈ after, isLiteralPadding c = true := by
  let inner := s.dropWhile isLiteralPadding
  refine ⟨s.takeWhile isLiteralPadding, (inner.reverse.takeWhile isLiteralPadding).reverse, ?_,
    fun c hc => List.mem_takeWhile_imp hc, fun c hc => ?_⟩
  · rw [unpadded, List.append_assoc, ← List.reverse_append, List.takeWhile_append_dropWhile,
      List.reverse_reverse, List.takeWhile_append_dropWhile]
  · exact List.mem_takeWhile_imp (List.mem_reverse.mp hc)

/-- **What stands between padding** is left if its ends are no padding. -/
theorem unpadded_append {before body after : List Char}
    (hbefore : ∀ c ∈ before, isLiteralPadding c = true)
    (hafter : ∀ c ∈ after, isLiteralPadding c = true)
    (hhead : ∃ c rest, body = c :: rest ∧ isLiteralPadding c = false)
    (hlast : ∃ c front, body = front ++ [c] ∧ isLiteralPadding c = false) :
    unpadded (before ++ body ++ after) = body := by
  have hfront : (before ++ body ++ after).dropWhile isLiteralPadding = body ++ after := by
    obtain ⟨c, rest, rfl, hc⟩ := hhead
    rw [List.append_assoc, List.dropWhile_append_of_pos hbefore, List.cons_append,
      List.dropWhile_cons_of_neg (by simp [hc])]
  obtain ⟨c, front, rfl, hc⟩ := hlast
  rw [unpadded, hfront, List.reverse_append,
    List.dropWhile_append_of_pos fun c hc => hafter c (List.mem_reverse.mp hc), List.reverse_concat,
    List.dropWhile_cons_of_neg (by simp [hc])]
  simp

/-- A sign and a numeral start and end with no padding. -/
theorem Numeral.unpadded_eq {before sign numeral after : List Char} {digits : List Nat} {n : Nat}
    {value : Int} (hbefore : ∀ c ∈ before, isLiteralPadding c = true)
    (hafter : ∀ c ∈ after, isLiteralPadding c = true) (hsign : Signed sign n value)
    (h : Numeral numeral digits) :
    unpadded (before ++ (sign ++ numeral) ++ after) = sign ++ numeral := by
  refine unpadded_append hbefore hafter ?_ ?_
  · cases hsign with
    | plain =>
      obtain ⟨c, rest, digit, rfl, hc⟩ := h.head_isDigit
      exact ⟨c, rest, rfl, isLiteralPadding_of_digitValue? hc⟩
    | plus => exact ⟨'+', numeral, rfl, by decide⟩
    | minus => exact ⟨'-', numeral, rfl, by decide⟩
  · obtain ⟨c, front, digit, rfl, hc⟩ := h.getLast_isDigit
    exact ⟨c, sign ++ front, (List.append_assoc ..).symm, isLiteralPadding_of_digitValue? hc⟩

/-- A numeral is read as a natural number, which is taken for an integer. -/
theorem numeral?_lift_eq_some_iff {s : List Char} {value : Int} :
    ((numeral? s).bind fun n => some (n : Int)) = some value
      ↔ ∃ n : Nat, numeral? s = some n ∧ (n : Int) = value := by
  simp only [Option.bind_eq_some_iff, Option.some.injEq]

/-- **A text is read as an integer** exactly if it is a literal that stands for it. -/
theorem integer?_eq_some_iff {s : List Char} {value : Int} :
    integer? s = some value ↔ IsLiteral s value := by
  constructor
  · intro h
    obtain ⟨before, after, hs, hbefore, hafter⟩ := exists_padding s
    have hliteral {sign numeral : List Char} {f : Int → Int} (hbody : unpadded s = sign ++ numeral)
        (hsign : ∀ n : Nat, Signed sign n (f n))
        (hvalue : ((numeral? numeral).bind fun n => some (n : Int)).map f = some value) :
        IsLiteral s value := by
      obtain ⟨_, hnumeral, rfl⟩ := Option.map_eq_some_iff.mp hvalue
      obtain ⟨n, hn, rfl⟩ := numeral?_lift_eq_some_iff.mp hnumeral
      obtain ⟨digits, hdigits, hlen, rfl⟩ := numeral?_eq_some_iff.mp hn
      exact ⟨before, sign, numeral, after, digits, hbody ▸ hs, hbefore, hafter, hdigits, hlen,
        hsign _⟩
    unfold integer? at h
    split at h
    next rest hbody => exact hliteral (hbody : unpadded s = ['-'] ++ rest) .minus h
    next rest hbody => exact hliteral (hbody : unpadded s = ['+'] ++ rest) .plus h
    next => exact hliteral (List.nil_append _).symm .plain h
  · rintro ⟨before, sign, numeral, after, digits, rfl, hbefore, hafter, hdigits, hlen, hsign⟩
    have hnumeral := numeral?_lift_eq_some_iff.mpr
      ⟨_, numeral?_eq_some_iff.mpr ⟨digits, hdigits, hlen, rfl⟩, rfl⟩
    rw [integer?, hdigits.unpadded_eq hbefore hafter hsign]
    cases hsign with
    | plus => exact Option.map_eq_some_iff.mpr ⟨_, hnumeral, rfl⟩
    | minus => exact Option.map_eq_some_iff.mpr ⟨_, hnumeral, rfl⟩
    | plain =>
      -- no digit is a sign, so the numeral is not taken apart
      obtain ⟨c, rest, digit, rfl, hc⟩ := hdigits.head_isDigit
      have hsigns : c ≠ '-' ∧ c ≠ '+' := by
        simpa using of_digitValue? (p := fun c => c != '-' && c != '+') (by decide +kernel) hc
      split
      next h => exact absurd (List.cons.inj h).1 hsigns.1
      next h => exact absurd (List.cons.inj h).1 hsigns.2
      next => exact Option.map_eq_some_iff.mpr ⟨_, hnumeral, rfl⟩

/-- A literal holds padding, a sign, digits and underscores, and so no colon. -/
theorem IsLiteral.colon_notMem {s : List Char} {value : Int} (h : IsLiteral s value) : ':' ∉ s := by
  obtain ⟨before, sign, numeral, after, digits, rfl, hbefore, hafter, hdigits, -, hsign⟩ := h
  have hpadding : isLiteralPadding ':' ≠ true := by decide
  simp only [List.mem_append, not_or]
  refine ⟨⟨fun h => hpadding (hbefore _ h), ?_, fun h => ?_⟩, fun h => hpadding (hafter _ h)⟩
  · cases hsign <;> decide
  · rcases hdigits.isDigit_or_underscore h with h | ⟨digit, h⟩
    · exact absurd h (by decide)
    · exact nomatch h.symm.trans (by decide +kernel : digitValue? ':' = none)

/-! ## Decimal numerals -/

/-- A decimal numeral has the digits of its number. -/
theorem numeral_decimal (n : Nat) : ∃ digits, Numeral (decimal n) digits
    ∧ digits.length = (decimal n).length ∧ Nat.ofDigits 10 digits.reverse = n := by
  induction n using Nat.strongRecOn with
  | ind n ih =>
    rw [decimal, Nat.toDigits_eq_if (by decide)]
    split
    next hn => exact ⟨[n], .last (digitValue?_digitChar hn), rfl, by simp⟩
    next hn =>
      obtain ⟨digits, hdigits, hlen, hvalue⟩ := ih (n / 10) (by omega)
      refine ⟨_, hdigits.concat (digitValue?_digitChar (Nat.mod_lt n (by decide))), ?_, ?_⟩
      · rw [List.length_append, hlen, decimal, List.length_append]
        rfl
      · rw [List.reverse_concat, Nat.ofDigits_cons, hvalue]
        exact Nat.mod_add_div n 10

/-- **The numeral of an integer is a literal** that stands for it, with padding around it or
without. -/
theorem isLiteral_decimal {value : Int} {before after : List Char}
    (hlen : (decimal value.natAbs).length ≤ maxDigits)
    (hbefore : ∀ c ∈ before, isLiteralPadding c = true)
    (hafter : ∀ c ∈ after, isLiteralPadding c = true) :
    IsLiteral (before ++ signedDecimal value ++ after) value := by
  obtain ⟨digits, hdigits, hcount, hvalue⟩ := numeral_decimal value.natAbs
  rw [← hcount] at hlen
  rw [signedDecimal]
  split
  next hneg =>
    refine ⟨before, ['-'], _, after, digits, rfl, hbefore, hafter, hdigits, hlen, ?_⟩
    have hsigned := Signed.minus value.natAbs
    rwa [show -(value.natAbs : Int) = value by omega, ← hvalue] at hsigned
  next hnonneg =>
    refine ⟨before, [], _, after, digits, rfl, hbefore, hafter, hdigits, hlen, ?_⟩
    have hsigned := Signed.plain value.natAbs
    rwa [Int.natAbs_of_nonneg (by omega), ← hvalue] at hsigned

end Dockerfile
