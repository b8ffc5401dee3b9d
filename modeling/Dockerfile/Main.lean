import Dockerfile.CommandLine.Run

/-!
# The program

Reads the environment and the documentation of the settings, then the files and standard input that
the command asks for, and lets `Invocation.run` decide what to print.
-/

namespace Dockerfile.Program

/-- The usage line. -/
def usage : String := "usage: hover [-h] [--docs DIR] [--json] [-v] FILE LINE:CHARACTER"

/-- The content of a file, or `none` if it cannot be read. -/
def readFile? (path : String) : IO (Option ByteArray) := do
  try
    return some (← IO.FS.readBinFile path)
  catch e =>
    IO.eprintln s!"can't read {path}: {e}"
    return none

/-- The items of a folder, or `none` if there is no folder at the path. -/
def readFolder? (path : String) : IO (Option (List (List Char × FolderItem))) := do
  let folder := (← IO.currentDir) / path
  if path.isEmpty || !(← folder.isDir) then return none
  let items ← (← folder.readDir).toList.mapM fun entry => do
    let item ← if ← entry.path.isDir then pure FolderItem.folder
      else FolderItem.file <$> IO.FS.readBinFile entry.path
    return (entry.fileName.toList, item)
  return some items

/-- The settings of the process, after their warnings have been written. -/
def readSettings : IO Settings := do
  let names := ["DOCKHOVER_CACHE_SIZE", "DOCKHOVER_DOCS_DIR", "DOCKHOVER_LOG_LEVEL"]
  let values ← names.mapM fun name => return (name, ← IO.getEnv name)
  let (settings, notices) := Settings.ofEnvironment fun name =>
    (values.lookup name).bind fun value => value.map String.toList
  for notice in notices do
    IO.eprintln (String.ofList notice.message)
  return settings

/-- Why the program stops. -/
def complaint : CommandFault → String
  | .nulInFileName => "the name of a file cannot hold a NUL character"
  | .dockerfileNotUtf8 => "the Dockerfile is not UTF-8"
  | .gapForFolder => "-- is no folder"
  | .override (.isFolder name) => s!"{String.ofList name} is a folder"
  | .override (.notUtf8 name) => s!"{String.ofList name} is not UTF-8"
  | .gapForPlace => "-- is no LINE:CHARACTER"

/-- The items of the folder that is given for documentation, if it is there. -/
def readGiven? : Option Given → IO (Option (List (List Char × FolderItem)))
  | none => return none
  | some .gap => return none
  | some (.text path) => readFolder? (String.ofList path)

/-- Loads the documentation of the settings, as is done before the arguments are looked at. -/
def load (settings : Settings) : IO Unit := do
  let given := settings.docsFolder.map Given.text
  let folder? ← readGiven? given
  if let .error fault := documentationAt (fun _ => folder?) given then
    throw (IO.userError (complaint fault))

/-- Answers one invocation. -/
def answer (settings : Settings) (i : Invocation) : IO UInt32 := do
  let source? ← if i.fromStdin then some <$> (← IO.getStdin).readBinToEnd
    else readFile? (String.ofList i.file)
  let folder? ← readGiven? (i.docsFolder? settings)
  match i.run settings (fun _ => folder?) source? with
  | .ok outcome =>
    IO.print (String.ofList outcome.stdout)
    return UInt32.ofNat outcome.exitCode
  | .error fault => throw (IO.userError (complaint fault))

/-- Reads the arguments and does what they ask for. -/
def run (arguments : List String) : IO UInt32 := do
  let settings ← readSettings
  load settings
  match Request.parse (arguments.map String.toList) with
  | .error e =>
    IO.eprintln usage
    IO.eprintln (String.ofList e.message)
    return 2
  | .ok .help =>
    IO.println usage
    return 0
  | .ok (.hover i) => answer settings i

end Dockerfile.Program

/-- Shows what there is to know at a place of a Dockerfile. -/
def main (arguments : List String) : IO UInt32 := Dockerfile.Program.run arguments
