import Dockerfile.Documentation.BuiltIn
import Dockerfile.Line.Physical

/-!
# Documentation with overrides

Documentation has a text for every topic: the built-in one, or the content of a file that overrides
it. A file overrides a keyword if its name without the extension `.md` is the keyword in any case,
and the directive if it is `escape` in any case. Files with another extension are passed over;
other `.md` files are reported. Where two files are about one topic, the last one counts in the
order of the file names by character codes. Since there is a text for every topic, files never
change which names are known.

The files are UTF-8. Their lines may end in any of the three ways and are shown with line feeds.
-/

namespace Dockerfile

/-! ## Texts by topic -/

/-- A text for every topic. -/
structure Documentation where
  text : Topic → List Char

namespace Documentation

/-- The help on every topic. -/
def builtIn : Documentation := ⟨fun t => t.help.markdown⟩

/-- The documentation with another text for one topic. -/
def override (d : Documentation) (topic : Topic) (s : List Char) : Documentation :=
  ⟨fun t => if t = topic then s else d.text t⟩

/-- As a source that is asked about topics. -/
def provider (d : Documentation) (t : Topic) : Option (List Char) := some (d.text t)

/-- The text for a name; `none` if no topic goes by it. -/
def lookup (d : Documentation) (name : List Char) : Option (List Char) :=
  (Topic.ofName? name).map d.text

/-- The names of the topics whose text is not the built-in one. -/
def overridden (d : Documentation) : List (List Char) :=
  (Topic.all.filter fun t => d.text t ≠ builtIn.text t).map Topic.name

end Documentation

/-! ## Files -/

/-- What a folder holds under a name. -/
inductive FolderItem
  | file (content : ByteArray)
  | folder

/-- Something worth a warning when documentation is loaded. -/
inductive DocumentationNotice
  | folderNotFound (path : List Char)
  | unknownTopic (fileName : List Char)
deriving DecidableEq

/-- The text of the warning. -/
def DocumentationNotice.message : DocumentationNotice → List Char
  | .folderNotFound path => "documentation directory not found, ignored: ".toList ++ path
  | .unknownTopic fileName => "not a keyword or directive, ignored: ".toList ++ fileName

/-- Why an override cannot be read. -/
inductive OverrideFault
  | isFolder (fileName : List Char)
  | notUtf8 (fileName : List Char)
deriving DecidableEq

/-- The name of a Markdown file without its extension. Dots in front of a name start no extension,
so there must be another character in front of it. -/
def markdownStem? (fileName : List Char) : Option (List Char) :=
  match fileName.reverse with
  | 'd' :: 'm' :: '.' :: stem => if stem.any (· != '.') then some stem.reverse else none
  | _ => none

/-- The topic that the file of a stem is about. -/
def Topic.ofStem? (stem : List Char) : Option Topic :=
  match Keyword.ofWord? stem with
  | some k => some (.keyword k)
  | none => if lowerCase stem = escapeName then some .escape else none

/-- A text whose lines end in line feeds. -/
def unifyEndings (s : List Char) : List Char :=
  List.intercalate ['\n'] ((RawLine.ofText s).map (·.content))

/-- The text of a file. -/
def decodeUtf8? (content : ByteArray) : Option (List Char) :=
  (String.fromUTF8? content).map String.toList

namespace FolderItem

/-- The text that an item of a folder overrides with. -/
def overrideText (fileName : List Char) : FolderItem → Except OverrideFault (List Char)
  | .folder => .error (.isFolder fileName)
  | .file content =>
    match decodeUtf8? content with
    | none => .error (.notUtf8 fileName)
    | some s => .ok (unifyEndings s)

end FolderItem

/-! ## Loading -/

namespace Documentation

/-- Goes through the items of a folder in the given order. -/
def loadItems (d : Documentation) :
    List (List Char × FolderItem) →
      Except OverrideFault (Documentation × List DocumentationNotice)
  | [] => .ok (d, [])
  | (fileName, item) :: more =>
    match markdownStem? fileName with
    | none => d.loadItems more
    | some stem =>
      match Topic.ofStem? stem with
      | none => do
        let (loaded, notices) ← d.loadItems more
        return (loaded, .unknownTopic fileName :: notices)
      | some topic => do
        let s ← item.overrideText fileName
        (d.override topic s).loadItems more

/-- The items of a folder in the order of their names. -/
def inOrder (items : List (List Char × FolderItem)) : List (List Char × FolderItem) :=
  items.mergeSort fun a b => !b.1.lex a.1 (· < ·)

/-- The built-in documentation overridden by the files of a folder, if there is one at the path. -/
def load (path : List Char) (items? : Option (List (List Char × FolderItem))) :
    Except OverrideFault (Documentation × List DocumentationNotice) :=
  match items? with
  | none => .ok (builtIn, [.folderNotFound path])
  | some items => builtIn.loadItems (inOrder items)

end Documentation

end Dockerfile
