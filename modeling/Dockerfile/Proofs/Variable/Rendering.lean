import Mathlib.Data.List.Forall2
import Dockerfile.Proofs.Variable.Names

/-!
# Declarations in writing

There are many ways to write a declaration: any blanks in front of it, and its value in any chunks,
quoted or not. Reading takes an unquoted chunk as long as it can, so neighbouring ones come back as
one chunk and empty ones are gone. The names, their offsets and the values stay.

* `Chunk.exists_writing` — every value can be written
* `Chunk.readAll?_append` — the chunks of a value, written and read back
* `Item.parseAll_flatMap_source` — declarations, written and read back
* `Item.rendering_of_parseAll` — only declarations in writing are read
-/

namespace Dockerfile

/-! ## Chunks -/

namespace Chunk

/-- An unquoted chunk is written without blanks and quotes, a quoted one without its own quote. -/
def Writable : Chunk → Prop
  | .plain text => ∀ c ∈ text, isChunkChar c = true
  | .doubleQuoted text => '"' ∉ text
  | .singleQuoted text => '\'' ∉ text

/-- Quotes around a character: double ones, unless it is one of them. -/
def quote (c : Char) : Chunk := if c = '"' then .singleQuoted [c] else .doubleQuoted [c]

/-- **Every value can be written**, blanks and quotes in it included. -/
theorem exists_writing (value : List Char) :
    ∃ chunks : List Chunk, (∀ c ∈ chunks, c.Writable) ∧ valueText chunks = value := by
  refine ⟨value.map quote, ?_, ?_⟩
  · intro c hc
    obtain ⟨d, -, rfl⟩ := List.mem_map.mp hc
    unfold quote
    by_cases hd : d = '"'
    · rw [if_pos hd, hd]
      show '\'' ∉ ['"']
      decide
    · rw [if_neg hd]
      exact fun hmem => hd (List.mem_singleton.mp hmem).symm
  · induction value with
    | nil => rfl
    | cons d value ih =>
      have hd : (quote d).content = [d] := by
        unfold quote
        by_cases hd : d = '"'
        · rw [if_pos hd]
          rfl
        · rw [if_neg hd]
          rfl
      rw [List.map_cons, valueText, List.flatMap_cons, hd]
      exact congrArg (d :: ·) ih

variable {s rest text : List Char} {cs : List Chunk}

/-! ### What is written is read -/

/-- A quoted text ends at the first quote. -/
theorem closing?_append {quote : Char} (h : quote ∉ text) :
    closing? quote (text ++ quote :: rest) = some (text, rest) := by
  have hpos : ∀ c ∈ text, (c != quote) = true := by
    intro c hc
    exact bne_iff_ne.mpr fun heq => h (heq ▸ hc)
  unfold closing?
  rw [List.dropWhile_append_of_pos hpos, List.takeWhile_append_of_pos hpos]
  simp

/-- An unquoted text is read together with the unquoted text behind it. -/
theorem readAll?_plain_append (ht : ∀ c ∈ text, isChunkChar c = true)
    (h : readAll? s = some (cs, rest)) :
    ∃ cs', readAll? (text ++ s) = some (cs', rest) ∧ valueText cs' = text ++ valueText cs := by
  cases text with
  | nil => exact ⟨cs, h, rfl⟩
  | cons c text =>
    have hread := read?_of_isChunkChar (s := text ++ s) (ht c (List.mem_cons_self ..))
    rw [← List.cons_append, List.takeWhile_append_of_pos ht, List.dropWhile_append_of_pos ht]
      at hread
    rw [readAll?_of_read? hread]
    by_cases hnil : s.takeWhile isChunkChar = []
    · -- no unquoted text follows
      rw [hnil, List.append_nil]
      have hself : s.dropWhile isChunkChar = s :=
        List.dropWhile_eq_self_iff.mpr (List.takeWhile_eq_nil_iff.mp hnil)
      rw [hself, h]
      exact ⟨_, rfl, rfl⟩
    · cases s with
      | nil => exact absurd rfl hnil
      | cons d s =>
        have hd : isChunkChar d = true :=
          Decidable.byContradiction fun hd => hnil (List.takeWhile_cons_of_neg hd)
        rw [readAll?_of_read? (read?_of_isChunkChar hd)] at h
        obtain ⟨⟨more, after⟩, hmore, heq⟩ := Option.map_eq_some_iff.mp h
        obtain ⟨rfl, rfl⟩ := Prod.mk.inj heq
        rw [hmore]
        refine ⟨_, rfl, ?_⟩
        simp only [valueText, List.flatMap_cons, content, List.append_assoc]

/-- **The chunks of a value, written up to a gap, are read back as chunks of the same value.** -/
theorem readAll?_append {chunks : List Chunk} (h : ∀ c ∈ chunks, c.Writable) (hrest : AtGap rest) :
    ∃ cs, readAll? (valueSource chunks ++ rest) = some (cs, rest)
      ∧ valueText cs = valueText chunks := by
  induction chunks with
  | nil => exact ⟨[], readAll?_of_atGap hrest, rfl⟩
  | cons chunk more ih =>
    obtain ⟨hchunk, hmore⟩ := List.forall_mem_cons.mp h
    obtain ⟨cs, hread, hvalue⟩ := ih hmore
    have hsplit : valueSource (chunk :: more) ++ rest
        = chunk.source ++ (valueSource more ++ rest) := by
      rw [valueSource, List.flatMap_cons, List.append_assoc]
      rfl
    rw [hsplit]
    cases chunk with
    | plain text =>
      obtain ⟨cs', hread', hvalue'⟩ := readAll?_plain_append hchunk hread
      exact ⟨cs', hread', by rw [hvalue', hvalue]; rfl⟩
    | doubleQuoted text =>
      have hquoted : read? (source (.doubleQuoted text) ++ (valueSource more ++ rest))
          = some (.doubleQuoted text, valueSource more ++ rest) := by
        simp [source, read?, closing?_append hchunk]
      rw [readAll?_of_read? hquoted, hread]
      exact ⟨_, rfl, congrArg (text ++ ·) hvalue⟩
    | singleQuoted text =>
      have hquoted : read? (source (.singleQuoted text) ++ (valueSource more ++ rest))
          = some (.singleQuoted text, valueSource more ++ rest) := by
        simp [source, read?, closing?_append hchunk]
      rw [readAll?_of_read? hquoted, hread]
      exact ⟨_, rfl, congrArg (text ++ ·) hvalue⟩

/-! ### What is read has been written -/

theorem not_mem_of_closing? {quote : Char} (h : closing? quote s = some (text, rest)) :
    quote ∉ text := by
  unfold closing? at h
  split at h
  next => cases h
  next =>
    obtain ⟨rfl, -⟩ := Prod.mk.inj (Option.some.inj h)
    intro hmem
    simpa using List.mem_takeWhile_imp hmem

theorem writable_of_read? {c : Chunk} (h : read? s = some (c, rest)) : c.Writable := by
  unfold read? at h
  split at h
  next => cases h
  next =>
    obtain ⟨⟨text, after⟩, hclose, heq⟩ := Option.map_eq_some_iff.mp h
    obtain ⟨rfl, -⟩ := Prod.mk.inj heq
    exact not_mem_of_closing? hclose
  next =>
    obtain ⟨⟨text, after⟩, hclose, heq⟩ := Option.map_eq_some_iff.mp h
    obtain ⟨rfl, -⟩ := Prod.mk.inj heq
    exact not_mem_of_closing? hclose
  next d tail hdouble hsingle =>
    split at h
    · cases h
    next hb =>
      obtain ⟨rfl, -⟩ := Prod.mk.inj (Option.some.inj h)
      intro e he
      rcases List.mem_cons.mp he with rfl | he
      · have hdouble : e ≠ '"' := fun heq => hdouble heq
        have hsingle : e ≠ '\'' := fun heq => hsingle heq
        simp [isChunkChar, hb, hdouble, hsingle]
      · exact List.mem_takeWhile_imp he

theorem writable_of_readAll? (h : readAll? s = some (cs, rest)) : ∀ c ∈ cs, c.Writable := by
  fun_induction readAll? s generalizing cs rest with
  | case1 | case2 =>
    obtain ⟨rfl, -⟩ := Prod.mk.inj (Option.some.inj h)
    simp
  | case3 => cases h
  | case4 c s _ chunk rest' hread ih =>
    obtain ⟨⟨more, after⟩, hmore, heq⟩ := Option.map_eq_some_iff.mp h
    obtain ⟨rfl, -⟩ := Prod.mk.inj heq
    exact List.forall_mem_cons.mpr ⟨writable_of_read? hread, ih hmore⟩

end Chunk

/-! ## Items -/

namespace Item

/-- An item is written behind blanks, with a name that is not empty and has no blanks and no equals
sign in it. -/
structure Writable (i : Item) : Prop where
  gap : isAllBlank i.gap = true
  name_ne_nil : i.name ≠ []
  name : ∀ c ∈ i.name, isVariableChar c = true
  value : ∀ chunks ∈ i.value, ∀ c ∈ chunks, c.Writable

/-- Declarations in writing: an item at the start of the text, and blanks in front of each further
item. -/
structure Rendering (items : List Item) : Prop where
  ne_nil : items ≠ []
  writable : ∀ i ∈ items, i.Writable
  start : ∀ i ∈ items.head?, i.gap = []
  apart : ∀ i ∈ items.tail, i.gap ≠ []

/-- Items that differ in nothing but how their values are cut into chunks. -/
structure Alike (i j : Item) : Prop where
  gap : i.gap = j.gap
  name : i.name = j.name
  source : i.source = j.source
  value : i.value.map valueText = j.value.map valueText

/-- A text that starts with a name starts with a word. -/
theorem atWord_name {name : List Char} (hne : name ≠ [])
    (hname : ∀ c ∈ name, isVariableChar c = true) (rest : List Char) : AtWord (name ++ rest) := by
  obtain ⟨c, more, rfl⟩ := List.exists_cons_of_ne_nil hne
  exact atWord_cons (isBlank_of_isVariableChar (hname c (List.mem_cons_self ..)))

variable {bare : Bool} {s rest trail : List Char} {i : Item} {items : List Item}

/-! ### What is written is read -/

namespace Writable

variable (hi : i.Writable)

include hi

/-- An item starts with a word, behind its blanks. -/
theorem atWord_body (rest : List Char) : AtWord (i.body ++ rest) := by
  rw [body, List.append_assoc]
  exact atWord_name hi.name_ne_nil hi.name _

/-- A name goes up to the first character that cannot be in a name. -/
theorem takeWhile_name {after : List Char} (hafter : ∀ c ∈ after.head?, isVariableChar c = false) :
    (i.name ++ after).takeWhile isVariableChar = i.name
      ∧ (i.name ++ after).dropWhile isVariableChar = after :=
  takeWhile_append_of_head hi.name hafter

/-- **An item written up to a gap is read back**, its value perhaps in other chunks. -/
theorem parse_append (hrest : AtGap rest) (hbare : bare = true ∨ i.value.isSome = true) :
    ∃ j, parse bare (i.source ++ rest) = .ok (j, rest) ∧ j.Alike i := by
  obtain ⟨hlead, hskip⟩ := leadingBlanks_append hi.gap (hi.atWord_body rest)
  have hread : ∃ j, parse bare (i.source ++ rest) = .ok (j, rest)
      ∧ j.name = i.name ∧ j.value.map valueText = i.value.map valueText := by
    rw [source, List.append_assoc]
    cases hvalue : i.value with
    | none =>
      have hstop : ∀ c ∈ rest.head?, isVariableChar c = false := by
        intro c hc
        simp [isVariableChar, hrest c hc]
      have hbody : i.body ++ rest = i.name ++ rest := by simp [body, hvalue]
      obtain ⟨htake, hdrop⟩ := hi.takeWhile_name hstop
      have hhead : rest.head? ≠ some '=' := fun hhead => absurd (hrest _ hhead) (by decide)
      have htrue : bare = true := by simpa [hvalue] using hbare
      refine ⟨⟨i.gap, i.name, none⟩, parse_eq_ok_iff.mpr ?_, rfl, rfl⟩
      rw [hlead, hskip, hbody, htake, hdrop]
      exact ⟨hi.name_ne_nil, Or.inr ⟨htrue, hhead, rfl, rfl⟩⟩
    | some chunks =>
      obtain ⟨cs, hcs, htext⟩ := Chunk.readAll?_append (hi.value chunks hvalue) hrest
      have hstop : ∀ c ∈ ('=' :: (valueSource chunks ++ rest)).head?, isVariableChar c = false := by
        intro c hc
        obtain rfl := Option.some.inj hc
        decide
      have hbody : i.body ++ rest = i.name ++ '=' :: (valueSource chunks ++ rest) := by
        simp [body, hvalue]
      obtain ⟨htake, hdrop⟩ := hi.takeWhile_name hstop
      refine ⟨⟨i.gap, i.name, some cs⟩, parse_eq_ok_iff.mpr ?_, rfl, congrArg some htext⟩
      rw [hlead, hskip, hbody, htake, hdrop]
      exact ⟨hi.name_ne_nil, Or.inl ⟨_, cs, rfl, hcs, rfl⟩⟩
  obtain ⟨j, hparse, hname, hvalue⟩ := hread
  refine ⟨j, hparse, ?_, hname, List.append_cancel_right (append_of_parse hparse), hvalue⟩
  rw [gap_of_parse hparse, source, List.append_assoc, hlead]

end Writable

/-- **Items in writing are read back**, their values perhaps in other chunks. -/
theorem parseAll_flatMap_source (hne : items ≠ []) (hitems : ∀ i ∈ items, i.Writable)
    (happart : ∀ i ∈ items.tail, i.gap ≠ []) (hbare : bare = true ∨ ∀ i ∈ items, i.value.isSome) :
    ∃ js, parseAll bare (items.flatMap source) = .ok (js, []) ∧ List.Forall₂ Alike js items := by
  induction items with
  | nil => exact absurd rfl hne
  | cons i more ih =>
    obtain ⟨hi, hmore⟩ := List.forall_mem_cons.mp hitems
    have hbi : bare = true ∨ i.value.isSome = true :=
      hbare.imp_right fun h => h i (List.mem_cons_self ..)
    cases more with
    | nil =>
      obtain ⟨j, hj, halike⟩ := hi.parse_append (show AtGap [] from AtGap.of_isAllBlank rfl) hbi
      rw [List.append_nil] at hj
      rw [List.flatMap_singleton]
      exact ⟨[j], parseAll_of_last hj rfl, .cons halike .nil⟩
    | cons k more =>
      have hk := hmore k (List.mem_cons_self ..)
      have hgap : k.gap ≠ [] := happart k (List.mem_cons_self ..)
      obtain ⟨js, hjs, hrest⟩ := ih (List.cons_ne_nil _ _) hmore
        (fun x hx => happart x (List.mem_cons_of_mem _ hx))
        (hbare.imp_right fun h x hx => h x (List.mem_cons_of_mem _ hx))
      -- the next item starts with blanks, and does not end with them
      have hsplit : (k :: more).flatMap source = k.gap ++ (k.body ++ more.flatMap source) := by
        rw [List.flatMap_cons, source, List.append_assoc]
      obtain ⟨hlead, hskip⟩ := leadingBlanks_append hk.gap
        (hk.atWord_body (more.flatMap source))
      have hatGap : AtGap ((k :: more).flatMap source) := by
        rw [hsplit]
        refine (leadingBlanks_ne_nil_iff.mp ?_).2
        rw [hlead]
        exact hgap
      have hblank : isAllBlank ((k :: more).flatMap source) = false := by
        rw [← Bool.not_eq_true, isAllBlank_iff_skipBlanks, hsplit, hskip]
        simp [body, hk.name_ne_nil]
      obtain ⟨j, hj, halike⟩ := hi.parse_append hatGap hbi
      rw [List.flatMap_cons]
      exact ⟨j :: js, parseAll_of_more hj hblank hjs, .cons halike hrest⟩

/-! ### What is read has been written -/

theorem writable_of_parse (h : parse bare s = .ok (i, rest)) : i.Writable := by
  have hgap : isAllBlank i.gap = true := by
    rw [gap_of_parse h]
    exact List.all_takeWhile
  refine ⟨hgap, name_ne_nil_of_parse h, isVariableChar_of_parse h, ?_⟩
  intro chunks hchunks
  obtain ⟨-, ⟨value, cs, -, hread, rfl⟩ | ⟨-, -, -, rfl⟩⟩ := parse_eq_ok_iff.mp h
  · obtain rfl := Option.some.inj hchunks
    exact Chunk.writable_of_readAll? hread
  · cases hchunks

theorem isSome_of_parse (h : parse false s = .ok (i, rest)) : i.value.isSome = true := by
  obtain ⟨-, ⟨value, chunks, -, -, rfl⟩ | ⟨hbare, -⟩⟩ := parse_eq_ok_iff.mp h
  · rfl
  · cases hbare

/-- **Only items in writing are read**, if the text starts with a word. -/
theorem rendering_of_parseAll (h : parseAll bare s = .ok (items, trail)) (hs : AtWord s) :
    Rendering items := by
  obtain ⟨i, rest, more, rfl, hparse, -⟩ := exists_of_parseAll h
  refine ⟨List.cons_ne_nil _ _, forall_of_parseAll writable_of_parse h, ?_,
    gap_ne_nil_of_parseAll h⟩
  intro j hj
  obtain rfl := Option.some.inj hj
  rw [gap_of_parse hparse]
  exact (leadingBlanks_append (show isAllBlank [] = true from rfl) hs).1

end Item

/-! ## Names of items -/

namespace Declaration

/-- The names of items and their values do not tell how the values are cut into chunks. -/
theorem Named.ofItems_alike {is js : List Item} (h : List.Forall₂ Item.Alike is js) :
    Named.ofItems is = Named.ofItems js := by
  have hstart : ∀ start, (Item.located start is).map (fun x => Named.mk x.1 x.2.name
        (x.2.value.map valueText)) = (Item.located start js).map fun x => Named.mk x.1 x.2.name
        (x.2.value.map valueText) := by
    induction h with
    | nil => exact fun _ => rfl
    | cons hij _ ih =>
      intro start
      rw [Item.located, Item.located, List.map_cons, List.map_cons, hij.source, ih, hij.gap]
      simp only [hij.name, hij.value]
  exact hstart 0

end Declaration

end Dockerfile
