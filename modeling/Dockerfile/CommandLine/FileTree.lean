import Dockerfile.Documentation.Folder

/-!
# File trees

A file system as a value. A path is looked up step by step from the root: an empty step and a single
dot stay where they are, two dots go back up, and any other step goes to what the folder holds under
that name. Each step needs a folder to start from, so a path through a file leads nowhere, also if
only a slash follows the file's name.

A tree has no working directory, so a path that does not start with a slash leads nowhere. It has no
permissions either: what stands at a path can be read.
-/

namespace Dockerfile

/-- A file or a folder. -/
inductive FileTree
  | file (content : ByteArray)
  | folder (items : List (List Char × FileTree))

namespace FileTree

/-- What stands at the end of the steps. `above` are the folders passed on the way, the nearest
first. -/
def walk (above : List FileTree) (here : FileTree) : List (List Char) → Option FileTree
  | [] => some here
  | step :: more =>
    match here with
    | .file _ => none
    | .folder items =>
      if step = [] ∨ step = ['.'] then walk above here more
      else if step = ['.', '.'] then
        match above with
        | [] => walk [] here more
        | parent :: above' => walk above' parent more
      else
        match items.lookup step with
        | none => none
        | some next => walk (here :: above) next more

/-- The steps of a path: what stands between its slashes. -/
def steps : List Char → List (List Char)
  | [] => [[]]
  | c :: rest =>
    if c = '/' then [] :: steps rest
    else
      match steps rest with
      | [] => [[c]]
      | step :: more => (c :: step) :: more

/-- What stands at an absolute path. Other paths lead nowhere. -/
def find? (root : FileTree) : List Char → Option FileTree
  | '/' :: path => walk [] root (steps path)
  | _ => none

/-- The content of a file. -/
def content? : FileTree → Option ByteArray
  | .file content => some content
  | .folder _ => none

/-- The items of a folder. -/
def items? : FileTree → Option (List (List Char × FolderItem))
  | .file _ => none
  | .folder items => some <| items.map fun (name, item) =>
    (name, match item with
      | .file content => .file content
      | .folder _ => .folder)

end FileTree

end Dockerfile
