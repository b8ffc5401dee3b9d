import Dockerfile.CommandLine.Run
import Dockerfile.Proofs.Documentation.Overrides

/-!
# How the command ends

Arguments that are accepted ask for a place of a Dockerfile. The command then ends with exit code 0
or 1, or it stops without an outcome. It stops where bytes that should be UTF-8 are not, be it in
the Dockerfile or in a file that overrides documentation, where a folder has the name of such a
file, at a NUL character in the name of the Dockerfile, and at gaps in the arguments.

A Dockerfile that is missing, or is a folder, is answered with exit code 1 before the documentation
is looked at. Bytes that cannot be decoded are not answered so: there the command stops.

The program loads the documentation of the settings before the command runs. An override there that
cannot be read stops it, even if the arguments name another folder or are refused.

* `Invocation.run_isOk_iff` — what has to be in order for an outcome
* `Invocation.exitCode_of_run` — the exit code of an outcome
* `Request.exitCode_iff` — when the exit code tells whether the Dockerfile has a text
* `programIn_eq_runIn` — when the program does what the command does
-/

namespace Dockerfile

namespace FileTree

/-- The content of the file at a path. -/
def file? (root : FileTree) (path : List Char) : Option ByteArray :=
  (root.find? path).bind content?

/-- The items of the folder at a path. -/
def folder? (root : FileTree) (path : List Char) : Option (List (List Char × FolderItem)) :=
  (root.find? path).bind items?

end FileTree

/-- Documentation is loaded if there is a text where the path of the folder is due and what
overrides a topic can be read. -/
theorem documentationAt_isOk_iff
    {folder? : List Char → Option (List (List Char × FolderItem))} {given : Option Given} :
    (∃ docs, documentationAt folder? given = .ok docs) ↔ given ≠ some .gap
      ∧ ∀ path items, given = some (.text path) → folder? path = some items →
        Documentation.Readable items := by
  cases given with
  | none => exact ⟨fun _ => ⟨nofun, nofun⟩, fun _ => ⟨_, rfl⟩⟩
  | some given =>
    cases given with
    | gap => exact ⟨nofun, fun h => absurd rfl h.1⟩
    | text path =>
      have hready : (some (Given.text path) ≠ some .gap ∧ ∀ path' items,
            some (Given.text path) = some (.text path') → folder? path' = some items →
            Documentation.Readable items)
          ↔ ∀ items, folder? path = some items → Documentation.Readable items := by
        refine ⟨fun h items => h.2 path items rfl, fun h => ⟨nofun, ?_⟩⟩
        intro path' items hpath hitems
        obtain rfl := Given.text.inj (Option.some.inj hpath)
        exact h items hitems
      rw [hready, ← Documentation.load_isOk_iff path, documentationAt]
      cases Documentation.load path (folder? path) with
      | error fault => exact ⟨nofun, nofun⟩
      | ok loaded => exact ⟨fun _ => ⟨_, rfl⟩, fun _ => ⟨_, rfl⟩⟩

namespace Invocation

variable {i : Invocation} {settings : Settings}
  {folder? : List Char → Option (List (List Char × FolderItem))} {source? : Option ByteArray}

/-- The content of the Dockerfile, given what the files of a system hold. -/
def dockerfile? (i : Invocation) (file? : List Char → Option ByteArray) (stdin : ByteArray) :
    Option ByteArray :=
  if i.fromStdin then some stdin else file? i.file

/-- The exit code that tells whether content can be read as UTF-8 text: 1 exactly if it cannot. -/
def readingCode (source? : Option ByteArray) : Nat :=
  if (source?.bind decodeUtf8?).isNone then 1 else 0

/-! ## What has to be in order -/

/-- What the documentation needs in order to be loaded. -/
structure DocumentationReady (i : Invocation) (settings : Settings)
    (folder? : List Char → Option (List (List Char × FolderItem))) : Prop where
  /-- There is a text where the path of the folder is due. -/
  path : i.docsFolder? settings ≠ some .gap
  /-- What overrides a topic can be read. -/
  overrides : ∀ path items, i.docsFolder? settings = some (.text path) →
    folder? path = some items → Documentation.Readable items

/-- What a run needs in order to end. If there is no Dockerfile, the documentation and the place are
not looked at. -/
structure Ready (i : Invocation) (settings : Settings)
    (folder? : List Char → Option (List (List Char × FolderItem))) (source? : Option ByteArray) :
    Prop where
  /-- The name of the Dockerfile holds no NUL character. -/
  file : '\x00' ∉ i.file
  /-- A Dockerfile that is there is UTF-8. -/
  source : ∀ content, source? = some content → decodeUtf8? content ≠ none
  documentation : source? ≠ none → i.DocumentationReady settings folder?
  /-- There is a text where the place is due. -/
  place : source? ≠ none → i.position ≠ none

theorem documentation_isOk_iff : (∃ docs, i.documentation settings folder? = .ok docs)
    ↔ i.DocumentationReady settings folder? :=
  documentationAt_isOk_iff.trans ⟨fun h => ⟨h.1, h.2⟩, fun h => ⟨h.path, h.overrides⟩⟩

theorem answer_isOk_iff {docs : Documentation} {s : List Char} :
    (∃ out, i.answer docs s = .ok out) ↔ i.position ≠ none := by
  unfold answer
  cases i.position with
  | none => exact ⟨nofun, fun h => absurd rfl h⟩
  | some position => exact ⟨nofun, fun _ => ⟨_, rfl⟩⟩

/-- **A run ends if and only if everything it needs is in order.** -/
theorem run_isOk_iff : (∃ out, i.run settings folder? source? = .ok out)
    ↔ i.Ready settings folder? source? := by
  unfold run
  by_cases hname : '\x00' ∈ i.file
  · rw [if_pos (List.contains_iff_mem.mpr hname)]
    exact ⟨nofun, fun h => absurd hname h.file⟩
  rw [if_neg (fun h => hname (List.contains_iff_mem.mp h))]
  cases source? with
  | none =>
    exact ⟨fun _ => ⟨hname, nofun, fun h => absurd rfl h, fun h => absurd rfl h⟩, fun _ => ⟨_, rfl⟩⟩
  | some content =>
    cases hs : decodeUtf8? content with
    | none =>
      simp only [hs]
      exact ⟨nofun, fun h => absurd hs (h.source content rfl)⟩
    | some s =>
      have hready : i.Ready settings folder? (some content)
          ↔ i.DocumentationReady settings folder? ∧ i.position ≠ none := by
        refine ⟨fun h => ⟨h.documentation nofun, h.place nofun⟩,
          fun h => ⟨hname, ?_, fun _ => h.1, fun _ => h.2⟩⟩
        intro content' hcontent
        obtain rfl := Option.some.inj hcontent
        rw [hs]
        nofun
      rw [hready, ← documentation_isOk_iff]
      simp only [hs]
      cases hdocs : i.documentation settings folder? with
      | error fault => exact ⟨nofun, nofun⟩
      | ok docs => exact answer_isOk_iff.trans ⟨fun h => ⟨⟨docs, rfl⟩, h⟩, And.right⟩

/-! ## The exit code -/

/-- **A run that ends** has exit code 1 if there is no Dockerfile, and 0 otherwise. -/
theorem exitCode_of_run {out : Outcome} (h : i.run settings folder? source? = .ok out) :
    out.exitCode = if source?.isNone then 1 else 0 := by
  unfold run at h
  split at h
  · cases h
  cases source? with
  | none =>
    obtain rfl := Except.ok.inj h
    rfl
  | some content =>
    simp only at h
    split at h
    · cases h
    split at h
    · cases h
    unfold answer at h
    split at h
    · cases h
    · obtain rfl := Except.ok.inj h
      rfl

/-- What is in order has a text if and only if it is there. -/
theorem Ready.readingCode_eq (h : i.Ready settings folder? source?) :
    readingCode source? = if source?.isNone then 1 else 0 := by
  unfold readingCode
  cases hsource : source? with
  | none => rfl
  | some content =>
    obtain ⟨s, hs⟩ := Option.ne_none_iff_exists'.mp (h.source content hsource)
    rw [Option.bind_some, hs]
    rfl

/-- A run tells by its exit code whether the Dockerfile has a text if and only if it ends. -/
theorem exitCode_run_iff : (∃ out, i.run settings folder? source? = .ok out
      ∧ out.exitCode = readingCode source?)
    ↔ i.Ready settings folder? source? := by
  constructor
  · rintro ⟨out, hout, -⟩
    exact run_isOk_iff.mp ⟨out, hout⟩
  · intro h
    obtain ⟨out, hout⟩ := run_isOk_iff.mpr h
    refine ⟨out, hout, ?_⟩
    rw [exitCode_of_run hout, h.readingCode_eq]

end Invocation

/-! ## The command as a whole -/

instance decidableEqExcept {ε α : Type} [DecidableEq ε] [DecidableEq α] :
    DecidableEq (Except ε α)
  | .ok a, .ok b => decidable_of_iff (a = b) (by simp)
  | .error e, .error f => decidable_of_iff (e = f) (by simp)
  | .ok _, .error _ => isFalse nofun
  | .error _, .ok _ => isFalse nofun

/-- Arguments that are accepted are run on what the tree holds. -/
theorem runIn_of_parse {arguments : List (List Char)} {i : Invocation}
    (hi : Request.parse arguments = .ok (.hover i)) (root : FileTree) (stdin : ByteArray)
    (settings : Settings) : runIn root stdin settings arguments
      = i.run settings root.folder? (i.dockerfile? root.file? stdin) := by
  rw [runIn, hi]
  rfl

/--
**When the exit code tells whether the Dockerfile can be read as UTF-8 text.**

Given arguments that are accepted, the command ends with 1 if the Dockerfile has no text and with 0
if it has one, exactly if what it needs is in order. This holds whatever files and folders hold, and
so for each tree of files.
-/
theorem Request.exitCode_iff {arguments : List (List Char)} {i : Invocation}
    (hi : Request.parse arguments = .ok (.hover i)) (settings : Settings) (stdin : ByteArray) :
    (∀ file? folder?,
      (∃ out, i.run settings folder? (i.dockerfile? file? stdin) = .ok out
        ∧ out.exitCode = Invocation.readingCode (i.dockerfile? file? stdin))
      ↔ i.Ready settings folder? (i.dockerfile? file? stdin))
    ∧ ∀ root : FileTree,
      (∃ out, runIn root stdin settings arguments = .ok out
        ∧ out.exitCode = Invocation.readingCode (i.dockerfile? root.file? stdin))
      ↔ i.Ready settings root.folder? (i.dockerfile? root.file? stdin) := by
  refine ⟨fun file? folder? => Invocation.exitCode_run_iff, fun root => ?_⟩
  rw [runIn_of_parse hi]
  exact Invocation.exitCode_run_iff

/-- A Dockerfile next to documentation, of which a folder with the extension of an override is about
nothing, is answered with exit code 0. -/
theorem Request.exitCode_in_order :
    Request.parse ["--docs=/docs".toList, "/D".toList, "0:0".toList]
        = .ok (.hover ⟨"/D".toList, some ⟨0, 0⟩, some (.text "/docs".toList), false, 0⟩)
      ∧ ∃ out, runIn (.folder [("D".toList, .file ⟨#[82]⟩), ("docs".toList, .folder
          [("Run.md".toList, .file ⟨#[65]⟩), ("x.md".toList, .folder [])])]) ⟨#[]⟩
          ⟨16, none, "WARNING".toList⟩ ["--docs=/docs".toList, "/D".toList, "0:0".toList] = .ok out
        ∧ out.exitCode = 0 := by
  have hi : Request.parse ["--docs=/docs".toList, "/D".toList, "0:0".toList]
      = .ok (.hover ⟨"/D".toList, some ⟨0, 0⟩, some (.text "/docs".toList), false, 0⟩) := by
    decide +kernel
  refine ⟨hi, ((Request.exitCode_iff hi ⟨16, none, "WARNING".toList⟩ ⟨#[]⟩).2 _).mpr
    ⟨by decide, ?_, fun _ => ⟨nofun, ?_⟩, fun _ => nofun⟩⟩
  · intro content hcontent
    obtain rfl := Option.some.inj hcontent
    decide
  · intro path items hpath hitems
    obtain rfl := Given.text.inj (Option.some.inj hpath)
    obtain rfl := Option.some.inj hitems
    decide +kernel

/-- Of a Dockerfile that is a single byte of no UTF-8 text, the command makes no outcome, let alone
one with exit code 1. -/
theorem runIn_not_utf8 :
    Request.parse ["/D".toList, "0:0".toList]
        = .ok (.hover ⟨"/D".toList, some ⟨0, 0⟩, none, false, 0⟩)
      ∧ decodeUtf8? ⟨#[0xff]⟩ = none
      ∧ runIn (.folder [("D".toList, .file ⟨#[0xff]⟩)]) ⟨#[]⟩ ⟨16, none, "WARNING".toList⟩
        ["/D".toList, "0:0".toList] = .error .dockerfileNotUtf8
      ∧ ¬ ∃ out, runIn (.folder [("D".toList, .file ⟨#[0xff]⟩)]) ⟨#[]⟩
          ⟨16, none, "WARNING".toList⟩ ["/D".toList, "0:0".toList] = .ok out
        ∧ out.exitCode = 1 := by
  have hstops : runIn (.folder [("D".toList, .file ⟨#[0xff]⟩)]) ⟨#[]⟩ ⟨16, none, "WARNING".toList⟩
      ["/D".toList, "0:0".toList] = .error .dockerfileNotUtf8 := by
    decide +kernel
  refine ⟨by decide +kernel, by decide, hstops, ?_⟩
  rintro ⟨out, hout, -⟩
  rw [hstops] at hout
  cases hout

/-! ## The program as a whole -/

/-- **The program is the command, once the documentation of the settings is loaded.** -/
theorem programIn_eq_runIn {root : FileTree} {settings : Settings}
    (hstart : ∀ path items, settings.docsFolder = some path → root.folder? path = some items →
      Documentation.Readable items) (stdin : ByteArray) (arguments : List (List Char)) :
    programIn root stdin settings arguments = runIn root stdin settings arguments := by
  have hgiven : ∀ path, settings.docsFolder.map Given.text = some (.text path) →
      settings.docsFolder = some path := by
    intro path h
    obtain ⟨path', hpath, heq⟩ := Option.map_eq_some_iff.mp h
    rw [hpath, Given.text.inj heq]
  have hgap : settings.docsFolder.map Given.text ≠ some .gap := by
    cases settings.docsFolder <;> nofun
  obtain ⟨docs, hdocs⟩ := documentationAt_isOk_iff.mpr
    ⟨hgap, fun path items h => hstart path items (hgiven path h)⟩
  unfold programIn
  rw [show (fun path => (root.find? path).bind FileTree.items?) = root.folder? from rfl, hdocs]

/-- An override of the settings that cannot be read stops the program, whatever its arguments
are. -/
theorem programIn_of_not_readable {root : FileTree} {settings : Settings} {path : List Char}
    {items : List (List Char × FolderItem)} (hpath : settings.docsFolder = some path)
    (hitems : root.folder? path = some items) (hread : ¬ Documentation.Readable items)
    (stdin : ByteArray) (arguments : List (List Char)) :
    ¬ ∃ out, programIn root stdin settings arguments = .ok out := by
  rintro ⟨out, hout⟩
  unfold programIn at hout
  split at hout
  · cases hout
  next docs hdocs =>
    have hready := documentationAt_isOk_iff.mp ⟨docs, hdocs⟩
    rw [hpath] at hready
    exact hread (hready.2 path items rfl hitems)

end Dockerfile
