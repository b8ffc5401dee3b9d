import Dockerfile.Proofs.Document.Instructions

/-!
# The escape character in force

A document is joined and watched for directives at the same time: which lines are directives depends
on how they are joined, and how they are joined depends on the directives in front. The top that has
been seen settles both. It changes the escape character once at most, right behind the directive
that chooses it, and never again once it is closed. So every line from the first comment or
instruction on is joined under the escape character that is in force at the end, and the references,
which are read under that one, are read under the one that their line is joined under.

* `exists_switch` — where the escape character changes
* `Document.not_endsTop_of_directive` — what stands in front of a directive
* `Document.escape_settled` — how the entries of a document are joined
-/

namespace Dockerfile

/-! ## The top after some entries -/

namespace Header

/-- The top behind a line. -/
def next (h : Header) (e : Entry) : Header := (h.feed e.line.text).2

/-- The top behind entries: each of them is watched in turn. -/
def behind (h : Header) (es : List Entry) : Header := es.foldl next h

theorem behind_append (h : Header) (as bs : List Entry) :
    h.behind (as ++ bs) = (h.behind as).behind bs := List.foldl_append

/-- The texts of the entries are watched one after the other. -/
theorem behind_eq_feedAll (h : Header) (es : List Entry) :
    h.behind es = (h.feedAll (es.map fun e => e.line.text)).2 := by
  induction es generalizing h with
  | nil => rfl
  | cons e es ih => exact ih (h.next e)

theorem behind_of_closed {h : Header} (hc : h.isOpen = false) (es : List Entry) :
    h.behind es = h := by
  rw [behind_eq_feedAll, feedAll_of_closed hc]

/-- **Only a directive changes the escape character**, and only to the one that it chooses. -/
theorem escape_next (h : Header) (e : Entry) :
    (h.next e).escape = h.escape ∨ h.chosen = none
      ∧ ∃ d, (h.feed e.line.text).1 = some d ∧ d.escape? = some (h.next e).escape := by
  unfold next
  rcases h.feed_cases e.line.text with hf | hf | ⟨d, hf⟩
  · exact Or.inl (by rw [hf])
  · exact Or.inl (by rw [hf]; rfl)
  · rw [hf]
    cases hchosen : h.chosen with
    | some c => exact Or.inl (by simp [escape, hchosen])
    | none =>
      cases hd : d.escape? with
      | none => exact Or.inl (by simp [escape, hchosen])
      | some c => exact Or.inr ⟨rfl, d, rfl, by simp [escape, hd]⟩

/-- A choice other than the backslash is kept. -/
theorem escape_behind_of_ne {h : Header} (hne : h.escape ≠ .backslash) (es : List Entry) :
    (h.behind es).escape = h.escape := by
  cases hchosen : h.chosen with
  | none => exact absurd (by rw [escape, hchosen]; rfl) hne
  | some c => rw [behind_eq_feedAll, escape, escape, chosen_feedAll hchosen, hchosen]

/-- **Where the escape character changes**: up to one entry it is the backslash, and behind it the
one that the entry, a directive, chooses. If it never changes, it is the backslash throughout. -/
theorem exists_switch {h : Header} (hb : h.escape = .backslash) (es : List Entry) :
    ∃ n, (∀ i ≤ n, (h.behind (es.take i)).escape = .backslash)
      ∧ (∀ i, n < i → (h.behind (es.take i)).escape = (h.behind es).escape)
      ∧ ((h.behind es).escape ≠ .backslash → ∃ e d, es[n]? = some e
        ∧ ((h.behind (es.take n)).feed e.line.text).1 = some d
        ∧ d.escape? = some (h.behind es).escape) := by
  induction es generalizing h with
  | nil => exact ⟨0, fun i _ => by rwa [List.take_nil], fun i _ => by rw [List.take_nil],
      fun hne => absurd hb hne⟩
  | cons e es ih =>
    by_cases hnext : (h.next e).escape = .backslash
    · obtain ⟨n, hbefore, hafter, hswitch⟩ := ih hnext
      refine ⟨n + 1, fun i hi => ?_, fun i hi => ?_, hswitch⟩
      · cases i with
        | zero => exact hb
        | succ i => exact hbefore i (Nat.le_of_succ_le_succ hi)
      · cases i with
        | zero => exact absurd hi (Nat.not_lt_zero _)
        | succ i => exact hafter i (Nat.lt_of_succ_lt_succ hi)
    · -- the first entry chooses another character, which is kept from there on
      have hkept : (h.behind (e :: es)).escape = (h.next e).escape := escape_behind_of_ne hnext es
      obtain ⟨-, d, hfed, hd⟩ := (h.escape_next e).resolve_left fun heq => hnext (heq.trans hb)
      refine ⟨0, fun i hi => ?_, fun i hi => ?_, fun _ => ⟨e, d, rfl, hfed, ?_⟩⟩
      · obtain rfl := Nat.le_zero.mp hi
        exact hb
      · cases i with
        | zero => exact absurd hi (Nat.lt_irrefl 0)
        | succ i =>
          rw [hkept]
          exact escape_behind_of_ne hnext (es.take i)
      · rw [hd, hkept]

end Header

/-- The top behind lines is that behind the entries that are made of them. -/
theorem Entry.foldLines_snd (index : Nat) (h : Header) (ls : List PhysicalLine) :
    (foldLines (fun h => h.escape.text) classify index h ls).2
      = h.behind (foldLines (fun h => h.escape.text) classify index h ls).1 := by
  fun_induction foldLines (fun h : Header => h.escape.text) classify index h ls with
  | case1 => rfl
  | case2 index h l rest joined stepped more ih => exact ih

theorem Reaches.eq_behind {index : Nat} {h t : Header} {used : List PhysicalLine}
    {items : List Entry}
    (hr : Reaches (fun h => h.escape.text) Entry.classify index h used items t) :
    t = h.behind items := by
  have hsnd := Entry.foldLines_snd index h used
  rwa [hr.foldLines_eq] at hsnd

/-! ## The entries of a document -/

/-- The logical line is the one that is joined under the escape character from its first physical
line on. -/
def LogicalLine.JoinedFrom (lines : List PhysicalLine) (escape : Escape) (l : LogicalLine) : Prop :=
  ∃ first rest, lines.drop l.firstLine = first :: rest
    ∧ l = .ofPieces l.index (join escape.text first rest).1 (join escape.text first rest).2.1

/-- A kind of line behind which no directive can follow: neither blank nor a directive. -/
def Node.EndsTop (n : Node) : Prop := n ≠ .blank ∧ ∀ d, n ≠ .directive d

theorem Node.fed_of_endsTop {l : LogicalLine} {fed : Option Directive}
    (h : (ofLine l fed).EndsTop) : fed = none ∧ l.isBlank = false := by
  cases fed with
  | some d => exact absurd rfl (h.2 d)
  | none =>
    refine ⟨rfl, ?_⟩
    rw [← Bool.not_eq_true]
    intro hb
    refine h.1 ?_
    simp only [ofLine, hb, if_true]

namespace Document

/-- The top of a document in front of the entry with the number `n`. -/
def headerAt (d : Document) (n : Nat) : Header := Header.initial.behind (d.entries.take n)

/-- The escape character in force where the entry with the number `n` starts. -/
def escapeAt (d : Document) (n : Nat) : Escape := (d.headerAt n).escape

variable {s : List Char} {n : Nat} {e : Entry}

theorem header_eq (s : List Char) :
    (ofText s).header = Header.initial.behind (ofText s).entries :=
  Entry.foldLines_snd 0 .initial (PhysicalLine.ofText s)

/-- **An entry is joined and classified under the top in front of it.** -/
theorem joinedFrom_escapeAt (he : (ofText s).entries[n]? = some e) :
    e.line.JoinedFrom (ofText s).lines ((ofText s).escapeAt n)
      ∧ e.node = .ofLine e.line (((ofText s).headerAt n).feed e.line.text).1 := by
  obtain ⟨used, l, rest, items, h, hsplit, hreach, hitem⟩ :=
    exists_reaches (List.mem_of_getElem? he)
  -- the entries in front are those of the lines in front
  have hindex : n = items.length := by
    rw [← index_of_getElem? he, hitem]
    rfl
  have hentries : (ofText s).entries.take n = items := by
    have hread := congrArg Prod.fst (hreach (l :: rest))
    rw [← hsplit] at hread
    have hread : (ofText s).entries = items ++ _ := hread
    rw [hread, hindex, List.take_left]
  have htop : (ofText s).headerAt n = h := by
    rw [headerAt, hentries, ← hreach.eq_behind]
  have hfirst : e.line.firstLine = used.length := by
    have hl : l.index = used.length := by
      rw [PhysicalLine.numbered_ofText s used.length l (by rw [hsplit]; simp), Nat.zero_add]
    rw [← hl, ← join_fst_line h.escape.text l rest, hitem]
    rfl
  rw [escapeAt, htop, hitem]
  refine ⟨⟨l, rest, ?_, rfl⟩, rfl⟩
  show (PhysicalLine.ofText s).drop _ = _
  rw [← hitem, hfirst, hsplit, List.drop_left]

theorem headerAt_add (d : Document) (n m : Nat) :
    d.headerAt (n + m) = (d.headerAt n).behind ((d.entries.drop n).take m) := by
  rw [headerAt, List.take_add, Header.behind_append, headerAt]

theorem escapeAt_of_length_le {n : Nat} (hn : (ofText s).entries.length ≤ n) :
    (ofText s).escapeAt n = (ofText s).escape := by
  rw [escapeAt, headerAt, List.take_of_length_le hn, escape, header_eq]

theorem headerAt_succ {d : Document} (he : d.entries[n]? = some e) :
    d.headerAt (n + 1) = (d.headerAt n).next e := by
  rw [headerAt, List.take_add_one, he, Header.behind_append]
  rfl

/-- **A comment or an instruction closes the top**, and nothing behind it changes anything. -/
theorem headerAt_of_endsTop (he : (ofText s).entries[n]? = some e) (ht : e.node.EndsTop) {m : Nat}
    (hm : n < m) : (ofText s).headerAt m = { (ofText s).headerAt n with isOpen := false } := by
  obtain ⟨hfed, hblank⟩ := Node.fed_of_endsTop ((joinedFrom_escapeAt he).2 ▸ ht)
  have hnext : ((ofText s).headerAt n).next e
      = { (ofText s).headerAt n with isOpen := false } := Header.feed_snd_of_none hfed hblank
  obtain ⟨k, rfl⟩ := Nat.exists_eq_add_of_le (Nat.succ_le_of_lt hm)
  rw [Nat.succ_eq_add_one, headerAt_add, headerAt_succ he, hnext, Header.behind_of_closed rfl]

/-- **From the first instruction or comment on, the escape character is that of the end.** -/
theorem escapeAt_of_endsTop (he : (ofText s).entries[n]? = some e) (ht : e.node.EndsTop) {m : Nat}
    (hm : n ≤ m) : (ofText s).escapeAt m = (ofText s).escape := by
  have hsame : ∀ k, n ≤ k → (ofText s).escapeAt k = (ofText s).escapeAt n := by
    intro k hk
    rcases Nat.lt_or_eq_of_le hk with hk | rfl
    · rw [escapeAt, headerAt_of_endsTop he ht hk]
      rfl
    · rfl
  have hlt := (List.getElem?_eq_some_iff.mp he).1
  rw [hsame m hm, ← hsame _ (Nat.le_of_lt hlt), escapeAt_of_length_le (Nat.le_refl _)]

/-- Behind a comment or an instruction the top is closed. -/
theorem isOpen_headerAt_of_endsTop (he : (ofText s).entries[n]? = some e) (ht : e.node.EndsTop)
    {m : Nat} (hm : n < m) : ((ofText s).headerAt m).isOpen = false := by
  rw [headerAt_of_endsTop he ht hm]

/-- **In front of a directive there are blank lines and directives only.** -/
theorem not_endsTop_of_directive (he : e ∈ (ofText s).entries) {x : Directive}
    (hx : e.node = .directive x) {a : Entry} (ha : a ∈ (ofText s).entries)
    (hlt : a.line.index < e.line.index) : ¬a.node.EndsTop := by
  intro ht
  have hopen := isOpen_headerAt_of_endsTop (getElem?_entries ha) ht hlt
  have hfed := Node.fed_of_directive ((joinedFrom_escapeAt (getElem?_entries he)).2.symm.trans hx)
  rw [Header.feed_of_closed hopen] at hfed
  cases hfed

theorem endsTop_of_instruction {i : Instruction} (hi : e.node = .instruction i) :
    e.node.EndsTop := by
  rw [hi]
  exact ⟨by simp, by simp⟩

/--
**The escape character is settled before it matters.**

* Every entry is joined under the escape character in force in front of it.
* An instruction, and every entry from the first instruction or comment on, is joined under the
  escape character that is in force at the end.
* The escape character changes once at most, from the backslash to that of the end, right behind a
  directive that chooses it.
* So the references of an instruction are read under the escape character that its line is joined
  under.
-/
theorem escape_settled (s : List Char) :
    let d : Document := ofText s
    (∀ (n : Nat) (e : Entry), d.entries[n]? = some e → e.line.JoinedFrom d.lines (d.escapeAt n)) ∧
    (∀ e ∈ d.entries, ∀ i, e.node = .instruction i → e.line.JoinedFrom d.lines d.escape) ∧
    (∀ (n m : Nat) (a e : Entry), d.entries[n]? = some a → a.node.EndsTop → n ≤ m →
      d.entries[m]? = some e → e.line.JoinedFrom d.lines d.escape) ∧
    (∃ n, (∀ i ≤ n, d.escapeAt i = .backslash) ∧ (∀ i, n < i → d.escapeAt i = d.escape) ∧
      (d.escape ≠ .backslash → ∃ (e : Entry) (x : Directive), d.entries[n]? = some e
        ∧ e.node = .directive x ∧ x.escape? = some d.escape)) ∧
    ∀ (n : Nat) (e : Entry) (i : Instruction), d.entries[n]? = some e →
      e.node = .instruction i → d.escapeAt n = d.escape
        ∧ d.referencesOn n = d.table.references (d.escapeAt n).text n i.toCommand := by
  intro d
  have hjoined : ∀ n (e : Entry), d.entries[n]? = some e →
      e.line.JoinedFrom d.lines (d.escapeAt n) := fun n e he => (joinedFrom_escapeAt he).1
  refine ⟨hjoined, ?_, ?_, ?_, ?_⟩
  · intro e he i hi
    have hget := getElem?_entries he
    rw [← escapeAt_of_endsTop hget (endsTop_of_instruction hi) (Nat.le_refl _)]
    exact hjoined _ e hget
  · intro n m a e ha ht hm he
    rw [← escapeAt_of_endsTop ha ht hm]
    exact hjoined m e he
  · obtain ⟨n, hbefore, hafter, hswitch⟩ := Header.exists_switch (h := .initial) rfl d.entries
    rw [← header_eq] at hafter hswitch
    refine ⟨n, hbefore, hafter, fun hne => ?_⟩
    obtain ⟨e, x, he, hfed, hx⟩ := hswitch hne
    have hfed : ((ofText s).headerAt n).feed e.line.text = (some x, _) := Prod.ext hfed rfl
    refine ⟨e, x, he, ?_, hx⟩
    rw [(joinedFrom_escapeAt he).2, hfed]
    rfl
  · intro n e i he hi
    have hescape := escapeAt_of_endsTop he (endsTop_of_instruction hi) (Nat.le_refl n)
    refine ⟨hescape, ?_⟩
    have hrefs := referencesOn_eq (List.mem_of_getElem? he) hi
    rw [index_of_getElem? he] at hrefs
    rw [hescape]
    exact hrefs

/-- A blank line, a directive that chooses the backtick, and an instruction that is continued with
it: the directive is joined under the backslash, the instruction under the backtick. -/
theorem escape_settled_behind_blank :
    let d := ofText "\n#escape=`\nRUN a`\n$b".toList
    ∃ e : Entry, d.entries[2]? = some e ∧ e.line.text = "RUN a$b".toList ∧ d.escape = .backtick
      ∧ d.escapeAt 1 = .backslash ∧ d.escapeAt 2 = .backtick
      ∧ e.line.JoinedFrom d.lines .backtick := by
  intro d
  let i : Instruction := ⟨⟨"RUN".toList, 0, "a$b".toList, 4⟩, none⟩
  let e : Entry := ⟨⟨2, "RUN a$b".toList, ⟨2, 0, 5, 11, 0⟩, [⟨3, 0, 2, 18, 5⟩]⟩, .instruction i⟩
  have he : d.entries[2]? = some e := by decide +kernel
  have hescape : d.escape = .backtick := by decide +kernel
  obtain ⟨-, hinstruction, -, -, hrefs⟩ := escape_settled "\n#escape=`\nRUN a`\n$b".toList
  refine ⟨e, he, rfl, hescape, by decide +kernel, ?_, ?_⟩
  · exact (hrefs 2 e i he rfl).1.trans hescape
  · exact hescape ▸ hinstruction e (List.mem_of_getElem? he) i rfl

end Document

end Dockerfile
