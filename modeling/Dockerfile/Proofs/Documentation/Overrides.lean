import Dockerfile.Documentation.Folder

/-!
# Overrides that can be read

Documentation is loaded from a folder unless one of its items overrides a topic without a text to
override it with. Other items do no harm, whatever they are.

* `Documentation.loadItems_isOk_iff` — the items in the order given
* `Documentation.load_isOk_iff` — the folder, in whatever order it lists its items
-/

namespace Dockerfile

/-- The topic that an item of a folder is about, judged by its name. -/
def Topic.ofFileName? (fileName : List Char) : Option Topic :=
  (markdownStem? fileName).bind ofStem?

/-- The text of an item of a folder; none if it is a folder, or a file that is not UTF-8. -/
def FolderItem.text? : FolderItem → Option (List Char)
  | .folder => none
  | .file content => decodeUtf8? content

/-- An item overrides unless it has no text. -/
theorem FolderItem.overrideText_eq_ok_iff {fileName s : List Char} {item : FolderItem} :
    item.overrideText fileName = .ok s ↔ ∃ raw, item.text? = some raw ∧ unifyEndings raw = s := by
  cases item with
  | folder => simp [overrideText, text?]
  | file content =>
    cases h : decodeUtf8? content with
    | none => simp [overrideText, text?, h]
    | some raw => simp [overrideText, text?, h]

namespace Documentation

/-- Every item that is about a topic has a text. -/
def Readable (items : List (List Char × FolderItem)) : Prop :=
  ∀ x ∈ items, Topic.ofFileName? x.1 ≠ none → x.2.text? ≠ none

instance (items : List (List Char × FolderItem)) : Decidable (Readable items) :=
  inferInstanceAs (Decidable (∀ x ∈ items, Topic.ofFileName? x.1 ≠ none → x.2.text? ≠ none))

section Items

variable {d : Documentation} {fileName : List Char} {item : FolderItem}
  {more : List (List Char × FolderItem)}

theorem readable_cons : Readable ((fileName, item) :: more)
    ↔ (Topic.ofFileName? fileName ≠ none → item.text? ≠ none) ∧ Readable more :=
  List.forall_mem_cons

/-- An item that is about nothing is not read. -/
theorem loadItems_pass (h : Topic.ofFileName? fileName = none) :
    (∃ loaded, d.loadItems ((fileName, item) :: more) = .ok loaded)
      ↔ ∃ loaded, d.loadItems more = .ok loaded := by
  rw [loadItems]
  cases hstem : markdownStem? fileName with
  | none => exact Iff.rfl
  | some stem =>
    rw [Topic.ofFileName?, hstem, Option.bind_some] at h
    simp only [h]
    cases d.loadItems more with
    | error fault => exact ⟨nofun, nofun⟩
    | ok loaded => exact ⟨fun _ => ⟨_, rfl⟩, fun _ => ⟨_, rfl⟩⟩

/-- An item that is about a topic is read before the others. -/
theorem loadItems_override {topic : Topic} (h : Topic.ofFileName? fileName = some topic) :
    d.loadItems ((fileName, item) :: more)
      = item.overrideText fileName >>= fun s => (d.override topic s).loadItems more := by
  obtain ⟨stem, hstem, htopic⟩ := Option.bind_eq_some_iff.mp h
  rw [loadItems, hstem]
  simp only [htopic]

end Items

/-- **Items are loaded if and only if those about a topic have texts.** -/
theorem loadItems_isOk_iff (d : Documentation) (items : List (List Char × FolderItem)) :
    (∃ loaded, d.loadItems items = .ok loaded) ↔ Readable items := by
  induction items generalizing d with
  | nil => exact ⟨fun _ _ hx => absurd hx List.not_mem_nil, fun _ => ⟨_, rfl⟩⟩
  | cons x more ih =>
    obtain ⟨fileName, item⟩ := x
    rw [readable_cons]
    cases htopic : Topic.ofFileName? fileName with
    | none =>
      rw [loadItems_pass htopic, ih]
      exact ⟨fun h => ⟨fun hne => absurd rfl hne, h⟩, And.right⟩
    | some topic =>
      rw [loadItems_override htopic]
      cases htext : item.overrideText fileName with
      | error fault =>
        refine ⟨nofun, fun h => ?_⟩
        obtain ⟨raw, hraw⟩ := Option.ne_none_iff_exists'.mp (h.1 nofun)
        rw [FolderItem.overrideText_eq_ok_iff.mpr ⟨raw, hraw, rfl⟩] at htext
        cases htext
      | ok s =>
        obtain ⟨raw, hraw, -⟩ := FolderItem.overrideText_eq_ok_iff.mp htext
        refine (ih (d.override topic s)).trans ⟨fun h => ⟨fun _ => ?_, h⟩, And.right⟩
        rw [hraw]
        nofun

/-- **A folder is loaded if and only if its items about a topic have texts**; where there is no
folder, nothing can go wrong. -/
theorem load_isOk_iff (path : List Char) (items? : Option (List (List Char × FolderItem))) :
    (∃ loaded, load path items? = .ok loaded) ↔ ∀ items, items? = some items → Readable items := by
  cases items? with
  | none => exact ⟨fun _ => nofun, fun _ => ⟨_, rfl⟩⟩
  | some items =>
    have hsame : Readable (inOrder items) ↔ Readable items :=
      forall_congr' fun _ => imp_congr_left List.mem_mergeSort
    rw [load, loadItems_isOk_iff, hsame]
    exact ⟨fun h _ hitems => Option.some.inj hitems ▸ h, fun h => h items rfl⟩

end Documentation

end Dockerfile
