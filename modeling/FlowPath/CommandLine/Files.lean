/-!
# Files

What the command needs of a file system, and a working directory in memory that offers it. A failing
access comes with the system's words for the failure.
-/

namespace FlowPath

/-- Access to files, to the standard input and to nothing else. Paths are complete. -/
structure FileAccess (m : Type → Type) where
  read : String → m (Except String String)
  isFile : String → m Bool
  readStdin : m (Except String String)
  write : String → String → m (Except String Unit)

/-- A path as seen from a directory. A path from the root stays as it is. -/
def joinPath (directory path : String) : String :=
  if path.startsWith "/" then path
  else if directory.endsWith "/" then directory ++ path
  else directory ++ "/" ++ path

/-- A working directory in memory: its files by their names from there, and the standard input. A
directory in it is there as long as a file is in it. -/
structure Folder where
  /-- The path of the directory. -/
  path : String
  files : List (String × String)
  stdin : String := ""
  /-- What a failing access says. -/
  failure : String

namespace Folder

/-- The parts of a path between its slashes. -/
def parts (path : String) : List String := path.splitOn "/"

/-- Files are known by the parts of their names. -/
def fileParts (folder : Folder) : List (List String × String) :=
  folder.files.map fun (name, content) => (parts name, content)

/-- The parts lead to a directory. -/
def isDirectory (folder : Folder) (directory : List String) : Bool :=
  directory.isEmpty ||
    folder.fileParts.any fun (file, _) =>
      directory.isPrefixOf file && decide (directory.length < file.length)

/-- Follows the parts of a path from a directory, which is given by its own parts. -/
def follow? (folder : Folder) (directory : List String) : List String → Option (List String)
  | [] => none
  | [last] =>
    if last = "" ∨ last = "." ∨ last = ".." then none else some (directory ++ [last])
  | part :: rest =>
    if part = "" ∨ part = "." then folder.follow? directory rest
    else if part = ".." then
      if directory.isEmpty then none else folder.follow? directory.dropLast rest
    else
      let inner := directory ++ [part]
      if folder.isDirectory inner then folder.follow? inner rest else none

/-- The parts of the file that a complete path means. It must lie in the folder. -/
def locate? (folder : Folder) (path : String) : Option (List String) :=
  let start := (folder.path ++ "/").toList
  if start.isPrefixOf path.toList then
    folder.follow? [] (parts (String.ofList (path.toList.drop start.length)))
  else none

/-- The content of the file at a complete path. -/
def read? (folder : Folder) (path : String) : Option String := do
  let file ← folder.locate? path
  (folder.fileParts.find? fun entry => entry.1 == file).map (·.2)

/-- The folder with a file written. The directory of the file must be there. -/
def write? (folder : Folder) (path content : String) : Option Folder := do
  let file ← folder.locate? path
  if folder.isDirectory file then none
  else
    let others := folder.files.filter fun entry => parts entry.1 != file
    some { folder with files := others ++ [("/".intercalate file, content)] }

/-- Access to the files of a folder. -/
def access : FileAccess (StateM Folder) where
  read path := do
    let folder ← get
    return match folder.read? path with
      | some content => .ok content
      | none => .error folder.failure
  isFile path := return ((← get).read? path).isSome
  readStdin := return .ok (← get).stdin
  write path content := do
    let folder ← get
    match folder.write? path content with
    | some written =>
      set written
      return .ok ()
    | none => return .error folder.failure

end Folder

end FlowPath
