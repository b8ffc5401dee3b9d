import Dockerfile.CommandLine.Arguments
import Dockerfile.CommandLine.FileTree
import Dockerfile.Hover
import Dockerfile.Settings
import Dockerfile.Text.JsonString

/-!
# The command

The command reads a Dockerfile and prints what is shown at a place of it: the contents and a line
feed, or nothing if there is nothing to show. With `--json` it prints an object with the member
`contents`, or `null`. It ends with exit code 0, with 1 if the Dockerfile cannot be read, and with 2
if its arguments are refused.

What is read from files is handed in: `Invocation.run` gets the content of the Dockerfile and the
items of the folder with documentation. `runIn` looks both up in a file tree.

An outcome is the exit code and the answer on standard output. The log is no part of it, and neither
are warnings, complaints and the text of the help, which `Program.run` writes.

This is the command alone. The program loads the documentation of the settings before it calls the
command, whatever the arguments ask for, and stops if an override there cannot be read: `programIn`
is the program as a whole.
-/

namespace Dockerfile

/-- What the command does in the end. -/
structure Outcome where
  exitCode : Nat
  stdout : List Char
deriving DecidableEq

/-- Why the command stops without an outcome. -/
inductive CommandFault
  | nulInFileName
  | dockerfileNotUtf8
  | gapForFolder
  | override (fault : OverrideFault)
  | gapForPlace
deriving DecidableEq

/-- The text that shows a result. -/
def render (json : Bool) (result : Option (List Char)) : List Char :=
  match json, result with
  | true, none => "null\n".toList
  | true, some s => "\x7b\"contents\": ".toList ++ JsonString.encode s ++ "\x7d\n".toList
  | false, none => []
  | false, some s => s ++ ['\n']

/-- The documentation for a folder, given the items of folders. Without a folder it is the built-in
one. -/
def documentationAt (folder? : List Char → Option (List (List Char × FolderItem))) :
    Option Given → Except CommandFault Documentation
  | none => .ok .builtIn
  | some .gap => .error .gapForFolder
  | some (.text path) =>
    match Documentation.load path (folder? path) with
    | .ok (documentation, _) => .ok documentation
    | .error fault => .error (.override fault)

namespace Invocation

/-- The Dockerfile is read from standard input. -/
def fromStdin (i : Invocation) : Bool := i.file == ['-']

/-- The folder with documentation: that of the arguments, or else that of the settings. -/
def docsFolder? (i : Invocation) (settings : Settings) : Option Given :=
  i.docs <|> settings.docsFolder.map .text

/-- The documentation to show, given the items of folders. -/
def documentation (i : Invocation) (settings : Settings)
    (folder? : List Char → Option (List (List Char × FolderItem))) :
    Except CommandFault Documentation :=
  documentationAt folder? (i.docsFolder? settings)

/-- What the command prints about the text of the Dockerfile. -/
def answer (i : Invocation) (documentation : Documentation) (s : List Char) :
    Except CommandFault Outcome :=
  match i.position with
  | none => .error .gapForPlace
  | some position => .ok ⟨0, render i.json (hover documentation.provider s position)⟩

/-- Runs the command on the content of the Dockerfile, `none` if it cannot be read. The name of a
file cannot hold a NUL character. -/
def run (i : Invocation) (settings : Settings)
    (folder? : List Char → Option (List (List Char × FolderItem))) (source? : Option ByteArray) :
    Except CommandFault Outcome :=
  if i.file.contains '\x00' then .error .nulInFileName
  else
    match source? with
    | none => .ok ⟨1, []⟩
    | some source =>
      match decodeUtf8? source with
      | none => .error .dockerfileNotUtf8
      | some s =>
        match i.documentation settings folder? with
        | .error fault => .error fault
        | .ok documentation => i.answer documentation s

end Invocation

/-- Runs the command with arguments in a file tree. A request for help prints nothing here. -/
def runIn (root : FileTree) (stdin : ByteArray) (settings : Settings)
    (arguments : List (List Char)) : Except CommandFault Outcome :=
  match Request.parse arguments with
  | .error _ => .ok ⟨2, []⟩
  | .ok .help => .ok ⟨0, []⟩
  | .ok (.hover i) =>
    let source? := if i.fromStdin then some stdin else (root.find? i.file).bind FileTree.content?
    i.run settings (fun path => (root.find? path).bind FileTree.items?) source?

/-- Runs the program with arguments in a file tree. What is loaded at the start is not used by the
command, which loads the documentation it shows by itself. -/
def programIn (root : FileTree) (stdin : ByteArray) (settings : Settings)
    (arguments : List (List Char)) : Except CommandFault Outcome :=
  match documentationAt (fun path => (root.find? path).bind FileTree.items?)
    (settings.docsFolder.map .text) with
  | .error fault => .error fault
  | .ok _ => runIn root stdin settings arguments

end Dockerfile
