import Mathlib.Data.Char
import Mathlib.Data.List.Lex
import Dockerfile.Proofs.Documentation.FileName

/-!
# The last file wins

A folder is gone through in the order of the names of its items, whatever order they are listed in.
For each topic the last file on it counts; what else is read does not show. Markdown files that are
about no topic are reported. The first item that is about a topic and has no text stops it all.

* `loadItems_of_readable`, `loadItems_of_not_readable` — the items in the order given
* `load_last_wins` — the folder, whatever its order
-/

namespace Dockerfile

/-- A Markdown file that is about nothing. -/
def isUnknown (fileName : List Char) : Bool :=
  match markdownStem? fileName with
  | none => false
  | some stem => (Topic.ofStem? stem).isNone

theorem isUnknown_iff {fileName : List Char} : isUnknown fileName = true
    ↔ (∃ stem, IsMarkdown fileName stem) ∧ ∀ t : Topic, ¬ t.About fileName := by
  have htopic : (∀ t : Topic, ¬ t.About fileName) ↔ Topic.ofFileName? fileName = none := by
    simp only [Option.eq_none_iff_forall_ne_some, ne_eq, Topic.ofFileName?_eq_some_iff]
  rw [htopic, isUnknown, Topic.ofFileName?]
  simp only [← markdownStem?_eq_some_iff]
  cases markdownStem? fileName <;> simp

namespace FolderItem

/-- Why an item without a text cannot be read. -/
def fault (fileName : List Char) : FolderItem → OverrideFault
  | .folder => .isFolder fileName
  | .file _ => .notUtf8 fileName

theorem overrideText_of_text? {fileName raw : List Char} {item : FolderItem}
    (h : item.text? = some raw) : item.overrideText fileName = .ok (withLineFeeds raw) :=
  overrideText_eq_ok_iff.mpr ⟨raw, h, unifyEndings_eq raw⟩

theorem overrideText_of_text?_eq_none {fileName : List Char} {item : FolderItem}
    (h : item.text? = none) : item.overrideText fileName = .error (item.fault fileName) := by
  cases item with
  | folder => rfl
  | file content =>
    rw [text?] at h
    simp [overrideText, h, fault]

end FolderItem

namespace Documentation

/-! ## In the order given -/

section InOrder

variable {d : Documentation} {fileName : List Char} {item : FolderItem}
  {items more : List (List Char × FolderItem)}

theorem readable_iff : Readable items
    ↔ ∀ x ∈ items, ∀ t : Topic, t.About x.1 → x.2.text? ≠ none := by
  refine forall₂_congr fun x _ => ⟨fun h t ht => ?_, fun h hne => ?_⟩
  · exact h (Topic.ofFileName?_eq_some_iff.mpr ht ▸ nofun)
  · obtain ⟨t, ht⟩ := Option.ne_none_iff_exists'.mp hne
    exact h t (Topic.ofFileName?_eq_some_iff.mp ht)

/-- What is reported about items. -/
def noticesOf (items : List (List Char × FolderItem)) : List DocumentationNotice :=
  ((items.map Prod.fst).filter isUnknown).map .unknownTopic

theorem loadItems_unread (h : Topic.ofFileName? fileName = none) :
    d.loadItems ((fileName, item) :: more)
      = (d.loadItems more).map fun r => (r.1, noticesOf [(fileName, item)] ++ r.2) := by
  rw [loadItems]
  cases hstem : markdownStem? fileName with
  | none =>
    have hknown : isUnknown fileName = false := by rw [isUnknown, hstem]
    simp only [noticesOf, List.map_cons, List.map_nil, List.filter_cons, hknown]
    cases d.loadItems more <;> rfl
  | some stem =>
    rw [Topic.ofFileName?, hstem, Option.bind_some] at h
    have hunknown : isUnknown fileName = true := by rw [isUnknown, hstem]; simp only [h]; rfl
    simp only [h, noticesOf, List.map_cons, List.map_nil, List.filter_cons, hunknown]
    cases d.loadItems more <;> rfl

/-- The text of the last item on a topic, or the one from before if there is no item on it. -/
def LastGives (items : List (List Char × FolderItem)) (t : Topic) (kept s : List Char) : Prop :=
  (∃ before x after raw, items = before ++ x :: after ∧ t.About x.1
      ∧ (∀ y ∈ after, ¬ t.About y.1) ∧ x.2.text? = some raw ∧ s = withLineFeeds raw)
    ∨ (∀ x ∈ items, ¬ t.About x.1) ∧ s = kept

theorem LastGives.pass {x : List Char × FolderItem} {t : Topic} {kept s : List Char}
    (hx : ¬ t.About x.1) (h : LastGives more t kept s) : LastGives (x :: more) t kept s := by
  rcases h with ⟨before, y, after, raw, rfl, hy⟩ | ⟨hnone, hs⟩
  · exact Or.inl ⟨x :: before, y, after, raw, rfl, hy⟩
  · exact Or.inr ⟨List.forall_mem_cons.mpr ⟨hx, hnone⟩, hs⟩

/-- A text that is overridden gives way to the one that overrides it. -/
theorem LastGives.override {x : List Char × FolderItem} {t u : Topic} {raw s : List Char}
    (hx : u.About x.1) (hraw : x.2.text? = some raw)
    (h : LastGives more t ((d.override u (withLineFeeds raw)).text t) s) :
    LastGives (x :: more) t (d.text t) s := by
  by_cases htu : t = u
  · subst htu
    rcases h with ⟨before, y, after, raw', rfl, hy⟩ | ⟨hnone, hs⟩
    · exact Or.inl ⟨x :: before, y, after, raw', rfl, hy⟩
    · refine Or.inl ⟨[], x, more, raw, rfl, hx, hnone, hraw, ?_⟩
      rw [hs, Documentation.override]
      exact if_pos rfl
  · have hkept : (d.override u (withLineFeeds raw)).text t = d.text t := if_neg htu
    exact LastGives.pass (fun ht => htu (ht.unique hx)) (hkept ▸ h)

/-- **Items that can be read** are all gone through: each topic has the text of the last item on it,
and every Markdown file that is about nothing is reported. -/
theorem loadItems_of_readable (d : Documentation) (h : Readable items) : ∃ loaded,
    d.loadItems items = .ok (loaded, noticesOf items)
      ∧ ∀ t, LastGives items t (d.text t) (loaded.text t) := by
  induction items generalizing d with
  | nil => exact ⟨d, rfl, fun t => Or.inr ⟨fun _ hx => absurd hx List.not_mem_nil, rfl⟩⟩
  | cons x more ih =>
    obtain ⟨fileName, item⟩ := x
    obtain ⟨hitem, hmore⟩ := readable_cons.mp h
    cases htopic : Topic.ofFileName? fileName with
    | none =>
      obtain ⟨loaded, hloaded, htexts⟩ := ih d hmore
      refine ⟨loaded, ?_, fun t => LastGives.pass (fun ht => ?_) (htexts t)⟩
      · rw [loadItems_unread htopic, hloaded]
        simp only [Except.map, noticesOf, ← List.map_append, ← List.filter_append]
        rfl
      · rw [Topic.ofFileName?_eq_some_iff.mpr ht] at htopic
        cases htopic
    | some u =>
      obtain ⟨raw, hraw⟩ := Option.ne_none_iff_exists'.mp (hitem (htopic ▸ nofun))
      obtain ⟨loaded, hloaded, htexts⟩ := ih (d.override u (withLineFeeds raw)) hmore
      have hknown : isUnknown fileName = false := by
        rw [← Bool.not_eq_true, isUnknown_iff]
        exact fun hnone => hnone.2 u (Topic.ofFileName?_eq_some_iff.mp htopic)
      refine ⟨loaded, ?_, fun t =>
        LastGives.override (Topic.ofFileName?_eq_some_iff.mp htopic) hraw (htexts t)⟩
      rw [loadItems_override htopic, FolderItem.overrideText_of_text? hraw]
      simp only [noticesOf, List.map_cons, List.filter_cons, hknown]
      exact hloaded

/-- **Items that cannot all be read** are gone through up to the first that cannot. -/
theorem loadItems_of_not_readable (d : Documentation) (h : ¬ Readable items) :
    ∃ before x after, items = before ++ x :: after ∧ Readable before ∧ (∃ t : Topic, t.About x.1)
      ∧ x.2.text? = none ∧ d.loadItems items = .error (x.2.fault x.1) := by
  induction items generalizing d with
  | nil => exact absurd (fun _ hx => absurd hx List.not_mem_nil) h
  | cons x more ih =>
    obtain ⟨fileName, item⟩ := x
    rw [readable_cons, not_and] at h
    cases htopic : Topic.ofFileName? fileName with
    | none =>
      have hitem : Topic.ofFileName? fileName ≠ none → item.text? ≠ none := fun hne =>
        absurd htopic hne
      obtain ⟨before, y, after, rfl, hbefore, hy, htext, hfault⟩ := ih d (h hitem)
      refine ⟨_, y, after, rfl, readable_cons.mpr ⟨hitem, hbefore⟩, hy, htext, ?_⟩
      rw [loadItems_unread htopic, hfault]
      rfl
    | some u =>
      have hu := Topic.ofFileName?_eq_some_iff.mp htopic
      rw [loadItems_override htopic]
      cases hraw : item.text? with
      | none =>
        refine ⟨[], (fileName, item), more, rfl, fun _ hx => absurd hx List.not_mem_nil, ⟨u, hu⟩,
          hraw, ?_⟩
        rw [FolderItem.overrideText_of_text?_eq_none hraw]
        rfl
      | some raw =>
        have hitem : Topic.ofFileName? fileName ≠ none → item.text? ≠ none := fun _ =>
          hraw ▸ nofun
        obtain ⟨before, y, after, rfl, hbefore, hy, htext, hfault⟩ :=
          ih (d.override u (withLineFeeds raw)) (h hitem)
        refine ⟨_, y, after, rfl, readable_cons.mpr ⟨hitem, hbefore⟩, hy, htext, ?_⟩
        rw [FolderItem.overrideText_of_text? hraw]
        exact hfault

end InOrder

/-! ## In the order of names -/

section Folder

variable {items listed : List (List Char × FolderItem)}

/-- **The items in order** stand in the order of their names by character codes. -/
theorem pairwise_inOrder (hnames : (items.map Prod.fst).Nodup) :
    (inOrder items).Pairwise fun x y => x.1 < y.1 := by
  have hle {a b : List Char} : (!b.lex a (· < ·)) = true ↔ ¬ b < a := by
    rw [Bool.not_eq_true', ← Bool.not_eq_true, List.lex_eq_true_iff_lt]
  have hsorted : (inOrder items).Pairwise fun x y => (!y.1.lex x.1 (· < ·)) = true := by
    refine List.pairwise_mergeSort ?_ ?_ items
    · intro x y z hxy hyz
      rw [hle, not_lt] at hxy hyz ⊢
      exact hxy.trans hyz
    · intro x y
      rw [Bool.or_eq_true, hle, hle, not_lt, not_lt]
      exact le_total x.1 y.1
  have hdistinct : (inOrder items).Pairwise fun x y => x.1 ≠ y.1 :=
    List.pairwise_map.mp (((List.mergeSort_perm items _).map Prod.fst).nodup_iff.mpr hnames)
  refine (hsorted.and hdistinct).imp fun h => ?_
  exact lt_of_le_of_ne (not_lt.mp (hle.mp h.1)) h.2

/-- How items are listed does not show in their order. -/
theorem inOrder_congr (hnames : (items.map Prod.fst).Nodup) (h : listed.Perm items) :
    inOrder listed = inOrder items := by
  have hlisted : (listed.map Prod.fst).Nodup := (h.map Prod.fst).nodup_iff.mpr hnames
  refine List.Perm.eq_of_pairwise (fun x y _ _ hxy hyx => absurd hyx (lt_asymm hxy))
    (pairwise_inOrder hlisted) (pairwise_inOrder hnames) ?_
  exact (List.mergeSort_perm listed _).trans (h.trans (List.mergeSort_perm items _).symm)

theorem mem_inOrder {x : List Char × FolderItem} : x ∈ inOrder items ↔ x ∈ items :=
  List.mem_mergeSort

/-- The last of the items that are on a topic. -/
structure LastOn (items : List (List Char × FolderItem)) (t : Topic)
    (x : List Char × FolderItem) : Prop where
  mem : x ∈ items
  about : t.About x.1
  last : ∀ y ∈ items, t.About y.1 → y ≠ x → y.1 < x.1

/-- The first of the items that are on a topic and have no text. -/
structure FirstUnreadable (items : List (List Char × FolderItem)) (x : List Char × FolderItem) :
    Prop where
  mem : x ∈ items
  about : ∃ t : Topic, t.About x.1
  text : x.2.text? = none
  first : ∀ y ∈ items, (∃ t : Topic, t.About y.1) → y.2.text? = none → y ≠ x → x.1 < y.1

theorem LastOn.unique {t : Topic} {x y : List Char × FolderItem} (hx : LastOn items t x)
    (hy : LastOn items t y) : x = y := by
  by_contra hne
  exact lt_asymm (hx.last y hy.mem hy.about (Ne.symm hne)) (hy.last x hx.mem hx.about hne)

theorem lastOn_of_inOrder {t : Topic} {before after : List (List Char × FolderItem)}
    {x : List Char × FolderItem} (hnames : (items.map Prod.fst).Nodup)
    (hsplit : inOrder items = before ++ x :: after) (hx : t.About x.1)
    (hafter : ∀ y ∈ after, ¬ t.About y.1) : LastOn items t x := by
  have hsorted := pairwise_inOrder hnames
  rw [hsplit, List.pairwise_append] at hsorted
  refine ⟨?_, hx, fun y hy hyt hne => ?_⟩
  · rw [← mem_inOrder, hsplit]
    exact List.mem_append_right _ List.mem_cons_self
  · rw [← mem_inOrder, hsplit, List.mem_append, List.mem_cons] at hy
    rcases hy with hy | rfl | hy
    · exact hsorted.2.2 y hy x List.mem_cons_self
    · exact absurd rfl hne
    · exact absurd hyt (hafter y hy)

theorem firstUnreadable_of_inOrder {before after : List (List Char × FolderItem)}
    {x : List Char × FolderItem} (hnames : (items.map Prod.fst).Nodup)
    (hsplit : inOrder items = before ++ x :: after) (hbefore : Readable before)
    (hx : ∃ t : Topic, t.About x.1) (htext : x.2.text? = none) : FirstUnreadable items x := by
  have hsorted := pairwise_inOrder hnames
  rw [hsplit, List.pairwise_append, List.pairwise_cons] at hsorted
  refine ⟨?_, hx, htext, fun y hy hyt hytext hne => ?_⟩
  · rw [← mem_inOrder, hsplit]
    exact List.mem_append_right _ List.mem_cons_self
  · rw [← mem_inOrder, hsplit, List.mem_append, List.mem_cons] at hy
    rcases hy with hy | rfl | hy
    · obtain ⟨t, ht⟩ := hyt
      exact absurd hytext (readable_iff.mp hbefore y hy t ht)
    · exact absurd rfl hne
    · exact hsorted.2.1.1 y hy

theorem lookup_name (d : Documentation) (t : Topic) : d.lookup t.name = some (d.text t) := by
  rw [lookup, Topic.ofName?_name]
  rfl

/-- The names that are known are those of the topics. -/
theorem lookup_ne_none_iff (d : Documentation) (name : List Char) :
    d.lookup name ≠ none ↔ name ∈ Topic.all.map Topic.name := by
  rw [lookup, ne_eq, Option.map_eq_none_iff, List.mem_map]
  constructor
  · intro h
    obtain ⟨t, ht⟩ := Option.ne_none_iff_exists'.mp h
    exact ⟨t, Topic.mem_all t, Topic.name_of_ofName? ht⟩
  · rintro ⟨t, -, rfl⟩
    rw [Topic.ofName?_name]
    nofun

/-- The names that are reported, in order. -/
theorem mem_filter_isUnknown {name : List Char} :
    name ∈ ((inOrder items).map Prod.fst).filter isUnknown ↔ name ∈ items.map Prod.fst
      ∧ (∃ stem, IsMarkdown name stem) ∧ ∀ t : Topic, ¬ t.About name := by
  rw [List.mem_filter, isUnknown_iff]
  simp only [List.mem_map, mem_inOrder]

/--
**The last file on a topic wins, whatever the order in which a folder is listed.**

If every item on a topic has a text, the names known are those of the topics. The text for such a
name is the last one in the order of file names, with its line endings turned into line feeds, or
the built-in one if there is no file on the topic. Each Markdown file on no topic is reported once,
in the order of their names, and no other file is. If some item on a topic has no text, the first of
them in that order is why nothing is loaded.
-/
theorem load_last_wins (path : List Char) (hnames : (items.map Prod.fst).Nodup) :
    (∀ listed, listed.Perm items → load path (some listed) = load path (some items))
      ∧ ((∀ x ∈ items, ∀ t : Topic, t.About x.1 → x.2.text? ≠ none) →
        ∃ (loaded : Documentation) (reported : List (List Char)),
          load path (some items) = .ok (loaded, reported.map .unknownTopic)
          ∧ (∀ name, loaded.lookup name ≠ none ↔ name ∈ Topic.all.map Topic.name)
          ∧ (∀ t : Topic,
            (∃ x raw, LastOn items t x ∧ x.2.text? = some raw
              ∧ loaded.lookup t.name = some (withLineFeeds raw))
            ∨ (∀ x ∈ items, ¬ t.About x.1) ∧ loaded.lookup t.name = some t.help.markdown)
          ∧ reported.Pairwise (· < ·)
          ∧ ∀ name, name ∈ reported ↔ name ∈ items.map Prod.fst
            ∧ (∃ stem, IsMarkdown name stem) ∧ ∀ t : Topic, ¬ t.About name)
      ∧ (¬ (∀ x ∈ items, ∀ t : Topic, t.About x.1 → x.2.text? ≠ none) → ∃ x,
        FirstUnreadable items x ∧ load path (some items) = .error (x.2.fault x.1)) := by
  have hsame : Readable (inOrder items)
      ↔ ∀ x ∈ items, ∀ t : Topic, t.About x.1 → x.2.text? ≠ none :=
    readable_iff.trans (forall_congr' fun _ => imp_congr_left mem_inOrder)
  refine ⟨fun listed hlisted => ?_, fun hreadable => ?_, fun hreadable => ?_⟩
  · rw [load, load, inOrder_congr hnames hlisted]
  · obtain ⟨loaded, hloaded, htexts⟩ := loadItems_of_readable builtIn (hsame.mpr hreadable)
    refine ⟨loaded, _, hloaded, lookup_ne_none_iff loaded, fun t => ?_, ?_,
      fun name => mem_filter_isUnknown⟩
    · rw [lookup_name]
      rcases htexts t with ⟨before, x, after, raw, hsplit, hx, hafter, hraw, htext⟩ | ⟨hnone, htext⟩
      · exact Or.inl ⟨x, raw, lastOn_of_inOrder hnames hsplit hx hafter, hraw, congrArg some htext⟩
      · exact Or.inr ⟨fun x hx => hnone x (mem_inOrder.mpr hx), congrArg some htext⟩
    · exact (List.pairwise_map.mpr (pairwise_inOrder hnames)).filter _
  · obtain ⟨before, x, after, hsplit, hbefore, hx, htext, hfault⟩ :=
      loadItems_of_not_readable builtIn (hreadable ∘ hsame.mp)
    exact ⟨x, firstUnreadable_of_inOrder hnames hsplit hbefore hx htext, hfault⟩

/-- Of a name in capitals and the same name in small letters, the small letters come last; a folder
with the extension of a file is reported if it is on no topic. -/
theorem load_last_wins_small_letters :
    let items : List (List Char × FolderItem) := [("run.md".toList, .file ⟨#[98, 13, 10]⟩),
      ("notes.txt".toList, .file ⟨#[255]⟩), ("x.md".toList, .folder),
      ("RUN.md".toList, .file ⟨#[97]⟩)]
    (items.map Prod.fst).Nodup
      ∧ (∀ x ∈ items, ∀ t : Topic, t.About x.1 → x.2.text? ≠ none)
      ∧ ∃ (loaded : Documentation) (reported : List (List Char)),
        load [] (some items) = .ok (loaded, reported.map .unknownTopic)
          ∧ loaded.lookup "RUN".toList = some "b\n".toList ∧ "x.md".toList ∈ reported := by
  intro items
  have hnames : (items.map Prod.fst).Nodup := by decide +kernel
  have hreadable : ∀ x ∈ items, ∀ t : Topic, t.About x.1 → x.2.text? ≠ none :=
    readable_iff.mp (by decide +kernel)
  have hunknown : isUnknown "x.md".toList = true := by decide +kernel
  have hsmall : Topic.About "run.md".toList (.keyword .run) :=
    Topic.ofFileName?_eq_some_iff.mp (by decide +kernel)
  have hlast : LastOn items (.keyword .run) ("run.md".toList, .file ⟨#[98, 13, 10]⟩) := by
    refine ⟨List.mem_cons_self, hsmall, fun y hy habout hne => ?_⟩
    simp only [items, List.mem_cons, List.not_mem_nil, or_false] at hy
    rcases hy with rfl | rfl | rfl | rfl
    · exact absurd rfl hne
    · decide
    · exact absurd habout ((isUnknown_iff.mp hunknown).2 _)
    · decide
  obtain ⟨loaded, reported, hload, -, htexts, -, hreported⟩ :=
    (load_last_wins [] hnames).2.1 hreadable
  refine ⟨hnames, hreadable, loaded, reported, hload, ?_, ?_⟩
  · rcases htexts (.keyword .run) with ⟨x, raw, hx, hraw, htext⟩ | ⟨hnone, -⟩
    · obtain rfl := hx.unique hlast
      obtain rfl := Option.some.inj (hraw.symm.trans (by decide +kernel : _ = some "b\r\n".toList))
      exact htext
    · exact absurd hsmall (hnone _ List.mem_cons_self)
  · exact (hreported _).mpr ⟨by decide, isUnknown_iff.mp hunknown⟩

end Folder

end Documentation

end Dockerfile
