import Dockerfile.Keyword
import Dockerfile.Line.Logical
import Dockerfile.Syntax.Terminal

/-!
# Letter case

Lower case changes the capitals of ASCII and nothing else. No class of characters that the language
tells apart holds some capital without its small letter, so runs and blanks are found in the same
places whatever the case of a text is.

* `apply_toLower` — what is the same for the capitals and their small letters is the same for all
* `upperCase_lowerCase` — a word is the same in capitals
-/

namespace Dockerfile

/-! ## Characters -/

/-- The capitals of ASCII. -/
def capitals : List Char := (List.range' 65 26).map Char.ofNat

/-- Lower case changes capitals only. -/
theorem toLower_eq_or_mem (c : Char) : c.toLower = c ∨ c ∈ capitals := by
  by_cases h : 65 ≤ c.toNat ∧ c.toNat ≤ 90
  · exact Or.inr (List.mem_map.mpr ⟨c.toNat, by simp; omega, Char.ofNat_toNat c⟩)
  · exact Or.inl (dif_neg fun hrange => h ⟨hrange.1, hrange.2⟩)

/-- **What is the same for a capital and its small letter** is the same for every character. -/
theorem apply_toLower {α : Type} {f : Char → α}
    (h : capitals.map (fun c => f c.toLower) = capitals.map f) (c : Char) :
    f c.toLower = f c := by
  rcases toLower_eq_or_mem c with hc | hc
  · rw [hc]
  · exact List.map_inj_left.mp h c hc

@[simp]
theorem isBlank_toLower (c : Char) : isBlank c.toLower = isBlank c := apply_toLower (by decide) c

@[simp]
theorem isKeyStart_toLower (c : Char) : isKeyStart c.toLower = isKeyStart c :=
  apply_toLower (by decide) c

@[simp]
theorem isKeyChar_toLower (c : Char) : isKeyChar c.toLower = isKeyChar c :=
  apply_toLower (by decide) c

@[simp]
theorem isKeywordChar_toLower (c : Char) : isKeywordChar c.toLower = isKeywordChar c := by
  simp [isKeywordChar]

@[simp]
theorem upperChar_toLower (c : Char) : upperChar c.toLower = upperChar c :=
  apply_toLower (by decide) c

/-- Lower case makes no character that is not a letter, and takes none away. -/
theorem toLower_eq_iff {x : Char} (hx : x.isAlpha = false) {c : Char} :
    c.toLower = x ↔ c = x := by
  rcases toLower_eq_or_mem c with hc | hc
  · rw [hc]
  · have hcapital : c.isAlpha = true :=
      List.all_eq_true.mp (by decide : capitals.all Char.isAlpha = true) c hc
    have hsmall : c.toLower.isAlpha = c.isAlpha := isKeyStart_toLower c
    constructor
    · rintro rfl
      rw [hsmall, hcapital] at hx
      cases hx
    · rintro rfl
      rw [hcapital] at hx
      cases hx

/-! ## Texts -/

section Texts

variable (s t : List Char)

@[simp]
theorem lowerCase_nil : lowerCase [] = [] := rfl

@[simp]
theorem lowerCase_cons (c : Char) : lowerCase (c :: s) = c.toLower :: lowerCase s := rfl

@[simp]
theorem lowerCase_append : lowerCase (s ++ t) = lowerCase s ++ lowerCase t := List.map_append

@[simp]
theorem length_lowerCase : (lowerCase s).length = s.length := List.length_map ..

@[simp]
theorem lowerCase_eq_nil : lowerCase s = [] ↔ s = [] := List.map_eq_nil_iff

theorem takeWhile_lowerCase {p : Char → Bool} (h : ∀ c, p c.toLower = p c) :
    (lowerCase s).takeWhile p = lowerCase (s.takeWhile p) := by
  rw [lowerCase, List.takeWhile_map, show p ∘ Char.toLower = p from funext h]
  rfl

theorem dropWhile_lowerCase {p : Char → Bool} (h : ∀ c, p c.toLower = p c) :
    (lowerCase s).dropWhile p = lowerCase (s.dropWhile p) := by
  rw [lowerCase, List.dropWhile_map, show p ∘ Char.toLower = p from funext h]
  rfl

/-- **A word is the same in capitals**, whatever its case. -/
@[simp]
theorem upperCase_lowerCase : upperCase (lowerCase s) = upperCase s := by
  simp [upperCase, lowerCase, List.flatMap_map]

@[simp]
theorem ofWord?_lowerCase : Keyword.ofWord? (lowerCase s) = Keyword.ofWord? s := by
  simp [Keyword.ofWord?]

@[simp]
theorem lowerCase_lowerCase : lowerCase (lowerCase s) = lowerCase s := by
  rw [lowerCase, lowerCase, List.map_map]
  exact List.map_congr_left fun c _ => apply_toLower (by decide) c

/-- Keywords have no dollar sign. -/
theorem Keyword.dollar_not_mem {s : List Char} (h : Keyword.ofWord? s ≠ none) : '$' ∉ s := by
  obtain ⟨k, hk⟩ := Option.ne_none_iff_exists'.mp h
  intro hd
  have hmem : '$' ∈ k.name := by
    rw [Keyword.name_of_ofName? hk]
    exact List.mem_flatMap.mpr ⟨'$', hd, by decide⟩
  revert hmem
  cases k <;> decide

/-! ### Blanks -/

@[simp]
theorem isAllBlank_lowerCase : isAllBlank (lowerCase s) = isAllBlank s := by
  simp [isAllBlank, lowerCase, Function.comp_def]

@[simp]
theorem leadingBlanks_lowerCase : leadingBlanks (lowerCase s) = lowerCase (leadingBlanks s) :=
  takeWhile_lowerCase s isBlank_toLower

@[simp]
theorem skipBlanks_lowerCase : skipBlanks (lowerCase s) = lowerCase (skipBlanks s) :=
  dropWhile_lowerCase s isBlank_toLower

@[simp]
theorem trimEnd_lowerCase : trimEnd (lowerCase s) = lowerCase (trimEnd s) := by
  induction s with
  | nil => rfl
  | cons c s ih =>
    rw [lowerCase_cons, trimEnd, trimEnd, ih, isBlank_toLower]
    cases trimEnd s with
    | nil =>
      rw [lowerCase_nil]
      simp only
      split <;> rfl
    | cons d t => rfl

@[simp]
theorem trim_lowerCase : trim (lowerCase s) = lowerCase (trim s) := by
  rw [trim, skipBlanks_lowerCase, trimEnd_lowerCase]
  rfl

@[simp]
theorem isCommentText_lowerCase : isCommentText (lowerCase s) = isCommentText s := by
  rw [isCommentText, isCommentText, skipBlanks_lowerCase, lowerCase, List.head?_map]
  cases (skipBlanks s).head? with
  | none => rfl
  | some c =>
    rw [Bool.eq_iff_iff]
    simp [toLower_eq_iff (x := '#') (by decide)]

end Texts

end Dockerfile
