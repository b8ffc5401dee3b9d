import Dockerfile.Directive
import Dockerfile.Proofs.Syntax.Grammars

/-!
# The format of a directive

A text is a directive if it can be written as the parts of one: blanks, `#`, blanks, a key, `=` and
a value. It can be written so in one way only. None of the blanks and no character of a key is an
equals sign or starts the part behind, so each part ends where the next one has to start, and the
equals sign is the first one of the text.

* `DirectiveForm.parse_append_iff` — what can follow a key
* `DirectiveForm.parse_eq_ok_iff_source` — reading undoes writing, and the other way round
* `Directive.parse_exact` — which texts are directives, and of what
-/

namespace Dockerfile

namespace DirectiveForm

/-! ## Parts -/

/-- A letter, and then letters, digits, `_` and `-`. -/
def IsKey (key : List Char) : Prop :=
  ∃ c more, key = c :: more ∧ isKeyStart c = true ∧ ∀ d ∈ more, isKeyChar d = true

/-- The parts hold what they are to hold. -/
structure WellFormed (f : DirectiveForm) : Prop where
  lead : isAllBlank f.lead = true
  gap : isAllBlank f.gap = true
  key : IsKey f.key
  value : '\n' ∉ f.value

variable {lead gap key behind s : List Char} {f g : DirectiveForm}

theorem IsKey.isKeyChar_of_mem (h : IsKey key) : ∀ c ∈ key, isKeyChar c = true := by
  obtain ⟨c, more, rfl, hc, hmore⟩ := h
  exact List.forall_mem_cons.mpr ⟨isKeyChar_of_isKeyStart hc, hmore⟩

/-! ## Reading and writing -/

/-- **Behind a key as long as it can be, a directive goes on with an equals sign**, and then there
is no line feed any more. -/
theorem parse_append_iff (hlead : isAllBlank lead = true) (hgap : isAllBlank gap = true)
    (hkey : IsKey key) (hbehind : ∀ c ∈ behind.head?, isKeyChar c = false) :
    parse (lead ++ '#' :: (gap ++ (key ++ behind))) = .ok f
      ↔ ∃ value, behind = '=' :: value ∧ '\n' ∉ value ∧ f = ⟨lead, gap, key, value⟩ := by
  obtain ⟨htake, hdrop⟩ := takeWhile_append_of_head hkey.isKeyChar_of_mem hbehind
  obtain ⟨c, more, hcons, hc, -⟩ := hkey
  have hstart : key ++ behind = c :: (more ++ behind) := by rw [hcons, List.cons_append]
  have hword : AtWord (key ++ behind) := hstart ▸ atWord_cons (isBlank_of_isKeyStart hc)
  obtain ⟨hlead₁, hlead₂⟩ :=
    leadingBlanks_append (s := '#' :: (gap ++ (key ++ behind))) hlead (atWord_cons rfl)
  obtain ⟨hgap₁, hgap₂⟩ := leadingBlanks_append hgap hword
  rw [parse_eq_ok_iff, hlead₁, hlead₂]
  constructor
  · rintro ⟨rest, d, tail, value, hrest, htail, -, hvalue, hlf, rfl⟩
    obtain rfl := (List.cons.inj hrest).2
    rw [hgap₂] at htail
    rw [← htail, hdrop] at hvalue
    exact ⟨value, hvalue, hlf, by rw [hgap₁, ← htail, htake]⟩
  · rintro ⟨value, hvalue, hlf, rfl⟩
    refine ⟨_, c, more ++ behind, value, rfl, hgap₂.trans hstart, hc, ?_, hlf, ?_⟩
    · rw [← hstart, hdrop, hvalue]
    · rw [← hstart, htake, hgap₁]

theorem parse_source (h : f.WellFormed) : parse f.source = .ok f :=
  (parse_append_iff h.lead h.gap h.key (by simp; decide)).mpr ⟨f.value, rfl, h.value, rfl⟩

theorem wellFormed_of_parse (h : parse s = .ok f) : f.WellFormed := by
  obtain ⟨rest, c, tail, value, -, -, hc, -, hlf, rfl⟩ := parse_eq_ok_iff.mp h
  refine ⟨List.all_takeWhile, List.all_takeWhile, ⟨c, tail.takeWhile isKeyChar, ?_, hc, ?_⟩, hlf⟩
  · exact List.takeWhile_cons_of_pos (isKeyChar_of_isKeyStart hc)
  · exact fun d hd => List.mem_takeWhile_imp hd

/-- **Reading undoes writing, and writing undoes reading.** -/
theorem parse_eq_ok_iff_source : parse s = .ok f ↔ f.WellFormed ∧ f.source = s := by
  constructor
  · intro h
    exact ⟨wellFormed_of_parse h, source_of_parse h⟩
  · rintro ⟨hf, rfl⟩
    exact parse_source hf

/-- **A text is written in one way only.** -/
theorem eq_of_source (hf : f.WellFormed) (hg : g.WellFormed) (h : f.source = g.source) : f = g := by
  have hparse := parse_source hf
  rw [h, parse_source hg] at hparse
  exact (Except.ok.inj hparse).symm

/-- The equals sign behind the key is the first one. -/
theorem dropWhile_source (h : f.WellFormed) :
    f.source.dropWhile (· != '=') = '=' :: f.value := by
  have hblank : ∀ t : List Char, isAllBlank t = true → ∀ c ∈ t, (c != '=') = true := by
    intro t ht c hc
    refine bne_iff_ne.mpr ?_
    rintro rfl
    exact absurd (List.all_eq_true.mp ht _ hc) (by decide)
  have hkey : ∀ c ∈ f.key, (c != '=') = true := by
    intro c hc
    refine bne_iff_ne.mpr ?_
    rintro rfl
    exact absurd (h.key.isKeyChar_of_mem _ hc) (by decide)
  rw [source, List.dropWhile_append_of_pos (hblank _ h.lead),
    List.dropWhile_cons_of_pos (by decide), List.dropWhile_append_of_pos (hblank _ h.gap),
    List.dropWhile_append_of_pos hkey, List.dropWhile_cons_of_neg (by decide)]

/-- The key stands at its offset. -/
theorem extract_source (f : DirectiveForm) :
    f.source.extract f.keyStart (f.keyStart + f.key.length) = f.key := by
  refine extract_of_append (show _ = (f.lead ++ '#' :: f.gap) ++ (f.key ++ '=' :: f.value) by
    simp [source]) ?_ rfl
  rw [keyStart, List.length_append, List.length_cons]
  omega

end DirectiveForm

/-! ## Main statement -/

namespace Directive

/-- A directive is made of the parts that its text is written with. -/
theorem parse_eq_some_iff {s : List Char} {d : Directive} :
    parse s = some d ↔ ∃ f : DirectiveForm, (f.WellFormed ∧ f.source = s)
      ∧ d = ⟨f.key, f.value, f.keyStart⟩ := by
  simp only [← DirectiveForm.parse_eq_ok_iff_source]
  unfold parse
  constructor
  · intro h
    split at h
    next f hf => exact ⟨f, hf, (Option.some.inj h).symm⟩
    next => cases h
  · rintro ⟨f, hf, rfl⟩
    rw [hf]

/--
**A text is a directive iff it has the format of one, and then nothing of it is lost.**

The format is blanks, `#`, blanks, a key, `=` and a value without a line feed; each run of blanks
can be empty, and so can the value.

* A text is a directive iff it can be written in this format.
* There is one way at most to write it so.
* The key and the value of the directive and the offsets of the key are those of this way.
* A text in which something else than an equals sign ends the key is no directive.
* The value is all that stands behind the first equals sign of the text.
-/
theorem parse_exact (s : List Char) :
    ((parse s).isSome = true ↔ ∃ f : DirectiveForm, f.WellFormed ∧ f.source = s) ∧
    (∀ f g : DirectiveForm, f.WellFormed → g.WellFormed → f.source = s → g.source = s → f = g) ∧
    (∀ (f : DirectiveForm) (d : Directive), f.WellFormed → f.source = s → parse s = some d →
      d.key = f.key ∧ d.value = f.value ∧ d.keyStart = f.lead.length + 1 + f.gap.length ∧
        d.keyEnd = d.keyStart + f.key.length ∧ s.extract d.keyStart d.keyEnd = d.key) ∧
    (∀ (lead gap key behind : List Char) (c : Char), isAllBlank lead = true →
      isAllBlank gap = true → DirectiveForm.IsKey key → isKeyChar c = false → c ≠ '=' →
      s = lead ++ '#' :: (gap ++ (key ++ c :: behind)) → parse s = none) ∧
    ∀ d : Directive, parse s = some d → s.dropWhile (· != '=') = '=' :: d.value := by
  refine ⟨?_, ?_, ?_, ?_, ?_⟩
  · rw [Option.isSome_iff_exists]
    constructor
    · rintro ⟨d, hd⟩
      obtain ⟨f, hf, -⟩ := parse_eq_some_iff.mp hd
      exact ⟨f, hf⟩
    · rintro ⟨f, hf⟩
      exact ⟨_, parse_eq_some_iff.mpr ⟨f, hf, rfl⟩⟩
  · intro f g hf hg hsf hsg
    exact DirectiveForm.eq_of_source hf hg (hsf.trans hsg.symm)
  · rintro f d hf rfl hd
    rw [parse_eq_some_iff.mpr ⟨f, ⟨hf, rfl⟩, rfl⟩] at hd
    obtain rfl := Option.some.inj hd
    exact ⟨rfl, rfl, rfl, rfl, f.extract_source⟩
  · rintro lead gap key behind c hlead hgap hkey hc hne rfl
    rw [Option.eq_none_iff_forall_ne_some]
    intro d hd
    obtain ⟨f, hf, -⟩ := parse_eq_some_iff.mp hd
    have hstop : ∀ e ∈ (c :: behind).head?, isKeyChar e = false := by simpa using hc
    obtain ⟨value, hvalue, -⟩ := (DirectiveForm.parse_append_iff hlead hgap hkey hstop).mp
      (DirectiveForm.parse_eq_ok_iff_source.mpr hf)
    exact hne (List.cons.inj hvalue).1
  · intro d hd
    obtain ⟨f, ⟨hf, rfl⟩, rfl⟩ := parse_eq_some_iff.mp hd
    exact DirectiveForm.dropWhile_source hf

/-- A key between blanks and a value with an equals sign and a carriage return in it. With a blank
behind the key there is no directive. -/
theorem parse_exact_second_equals :
    let s := " #\tEscape=a=b\r".toList
    let f : DirectiveForm := ⟨[' '], ['\t'], "Escape".toList, "a=b\r".toList⟩
    f.WellFormed ∧ f.source = s ∧ parse s = some ⟨f.key, f.value, 3⟩
      ∧ s.dropWhile (· != '=') = '=' :: f.value ∧ parse "#Escape =a".toList = none := by
  intro s f
  have hkey : DirectiveForm.IsKey "Escape".toList :=
    ⟨'E', "scape".toList, rfl, rfl, List.all_eq_true.mp (by decide)⟩
  have hf : f.WellFormed := ⟨rfl, rfl, hkey, by decide⟩
  obtain ⟨hsome, -, hparts, -, hvalue⟩ := parse_exact s
  obtain ⟨d, hd⟩ := Option.isSome_iff_exists.mp (hsome.mpr ⟨f, hf, rfl⟩)
  obtain ⟨hk, hv, hstart, -, -⟩ := hparts f d hf rfl hd
  have hdirective : d = ⟨f.key, f.value, 3⟩ := by
    cases d
    simp only at hk hv hstart
    rw [hk, hv, hstart]
    rfl
  obtain ⟨-, -, -, hnone, -⟩ := parse_exact "#Escape =a".toList
  refine ⟨hf, rfl, hdirective ▸ hd, hv ▸ hvalue d hd, ?_⟩
  exact hnone [] [] "Escape".toList "=a".toList ' ' rfl rfl hkey (by decide) (by decide) rfl

end Directive

end Dockerfile
