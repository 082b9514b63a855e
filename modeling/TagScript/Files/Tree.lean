import TagScript.Files.Host

/-!
# A model of files

The files of a machine are a map from the parts of a path to what lies there. Every operation on
files is a function on that map.
-/

namespace TagScript

/-- What lies at a path. -/
inductive Node where
  | file (content : Bytes)
  | directory
  deriving DecidableEq, Repr

/-- Whether it is a file or a directory. -/
def Node.kind : Node → NodeKind
  | .file _ => .file
  | .directory => .directory

/-- Files and directories by the parts of their path from the root. -/
structure FileTree where
  nodes : List (List Bytes × Node) := []
  deriving DecidableEq, Repr

namespace FileTree

/-- What lies at a path; the root is a directory. -/
def find? (t : FileTree) (place : List Bytes) : Option Node :=
  if place.isEmpty then some .directory else t.nodes.lookup place

/-- The tree with something put at a place, instead of what was there. -/
def put (t : FileTree) (place : List Bytes) (node : Node) : FileTree :=
  ⟨(place, node) :: t.nodes.filter (·.1 ≠ place)⟩

/-- The tree without a place and all below it. -/
def erase (t : FileTree) (place : List Bytes) : FileTree :=
  ⟨t.nodes.filter fun (p, _) => !place.isPrefixOf p⟩

/-- Follow parts from a place on. Every part but the last has to be a directory. -/
def walk (t : FileTree) (place : List Bytes) : List Bytes → Except FileFault (List Bytes)
  | [] => .ok place
  | part :: rest =>
    if part.isEmpty || part = selfName then walk t place rest
    else if part = upName then walk t place.dropLast rest
    else if FileFault.maxNameLength < part.length then .error .nameTooLong
    else match t.find? (place ++ [part]) with
      | none => .error .missing
      | some .directory => walk t (place ++ [part]) rest
      | some (.file _) => if rest.isEmpty then .ok (place ++ [part]) else .error .notDirectory

/-- The place that a path leads to from a place. -/
def reach (t : FileTree) (place : List Bytes) (path : Path) : Except FileFault (List Bytes) :=
  match FileFault.ofText? path.text with
  | some fault => .error fault
  | none => t.walk place path.parts

/-- The place of a name in what lies at a place. -/
def entry (t : FileTree) (place : List Bytes) (name : Bytes) : Except FileFault (List Bytes) :=
  match FileFault.ofText? name, t.find? place with
  | some fault, _ => .error fault
  | none, some (.file _) => .error .notDirectory
  | none, _ => t.walk place [name]

/-- The tree with a directory at each of some places where nothing was. -/
def addDirectories (t : FileTree) (places : List (List Bytes)) : FileTree :=
  places.foldl (fun t place => if (t.find? place).isNone then t.put place .directory else t) t

/-- The files below a place. -/
def filesBelow (t : FileTree) (place : List Bytes) : List Path :=
  t.nodes.filterMap fun
    | (p, .file _) => if place.isPrefixOf p && p ≠ place then some ⟨true, p⟩ else none
    | (_, .directory) => none

/-- Remove a name from a directory, and all below it. -/
def removeFrom (t : FileTree) (directory : Path) (name : Bytes) : Except FileError FileTree :=
  match t.reach [] directory with
  | .error .missing => .ok t
  | .error fault => .error ⟨.openFile, directory.text, fault⟩
  | .ok place =>
    match t.entry place name with
    | .ok here => .ok (t.erase here)
    | .error .missing => .ok t
    | .error fault => .error ⟨.remove, directory.text ++ "/" ++ name, fault⟩

/-- Remove a clean path from the root, and all below it. Where the path does not lead anywhere, its
last name is looked for in the directory above, and that gives the error. -/
def removeAll (t : FileTree) (path : Path) : Except FileError FileTree :=
  match t.reach [] path with
  | .ok place => .ok (t.erase place)
  | .error .missing => .ok t
  | .error _ => t.removeFrom path.directory (path.parts.getLast?.getD [])

/-- Why no directory can be made at a place where nothing is, given the text that asks for it. -/
def newFault? (text name : Bytes) : Option FileFault :=
  match FileFault.ofText? text with
  | some fault => some fault
  | none => if FileFault.maxNameLength < name.length then some .nameTooLong else none

/-- Make the directories that lead on from a place, one in another. The first that cannot be made
ends it, and those before it stay. -/
def makeFrom (t : FileTree) (place : List Bytes) : List Bytes → Except FileError Unit × FileTree
  | [] => (.ok (), t)
  | name :: rest =>
    let here := place ++ [name]
    let text := Path.text ⟨true, here⟩
    match t.find? here with
    | some .directory => makeFrom t here rest
    | some (.file _) => (.error ⟨.makeDirectory, text, .notDirectory⟩, t)
    | none =>
      match newFault? text name with
      | some fault => (.error ⟨.makeDirectory, text, fault⟩, t)
      | none => makeFrom (t.put here .directory) here rest

/-- Make a directory at a clean path from the root, and those on the way to it. -/
def makeDirectories (t : FileTree) (path : Path) : Except FileError Unit × FileTree :=
  t.makeFrom [] path.parts

/-- Give the file at a clean path from the root a content. -/
def writeFile (t : FileTree) (path : Path) (content : Bytes) : Except FileError FileTree :=
  match t.reach [] path, t.walk [] path.parts.dropLast with
  | .ok place, _ =>
    if t.find? place = some .directory then .error ⟨.openFile, path.text, .isDirectory⟩
    else .ok (t.put place (.file content))
  | .error .missing, .ok _ => .ok (t.put path.parts (.file content))
  | .error fault, _ => .error ⟨.openFile, path.text, fault⟩

end FileTree

/-- A model of a machine: its files, and where and by whom a program is run. Its clock stands
still. -/
structure Machine where
  tree : FileTree := {}
  workingDirectory : Path := ⟨true, []⟩
  userName : Bytes := []
  deriving DecidableEq, Repr

namespace Machine

/-- The place that a path leads to. The empty path leads nowhere. -/
def resolve (m : Machine) (path : Path) : Except FileFault (List Bytes) :=
  if !path.rooted && path.parts = [[]] then .error .missing
  else m.tree.reach (if path.rooted then [] else m.workingDirectory.parts) path

/-- What a path leads to. -/
def look (m : Machine) (path : Path) : Except FileError NodeKind :=
  match m.resolve path with
  | .error fault => .error ⟨.look, path.text, fault⟩
  | .ok place =>
    match m.tree.find? place with
    | some node => .ok node.kind
    | none => .error ⟨.look, path.text, .missing⟩

/-- The content of the file that a path leads to. -/
def readFile (m : Machine) (path : Path) : Except FileError Bytes :=
  match m.resolve path with
  | .error fault => .error ⟨.openFile, path.text, fault⟩
  | .ok place =>
    match m.tree.find? place with
    | some (.file content) => .ok content
    | some .directory => .error ⟨.readFile, path.text, .isDirectory⟩
    | none => .error ⟨.openFile, path.text, .missing⟩

/-- Carry out a change of the files; a change that fails leaves them as they are. -/
def change (f : FileTree → Except FileError FileTree) : StateM Machine (Except FileError Unit) :=
  fun m => match f m.tree with
    | .ok tree => (.ok (), { m with tree })
    | .error e => (.error e, m)

instance : MonadHost (StateM Machine) where
  workingDirectory := fun m => (m.workingDirectory, m)
  userName := fun m => (m.userName, m)
  now := pure 0
  look path := fun m => (m.look path, m)
  readFile path := fun m => (m.readFile path, m)
  filesBelow path := fun m => (m.tree.filesBelow (path.absolute m.workingDirectory).parts, m)
  removeAll path := change (·.removeAll path)
  makeDirectories path := fun m =>
    let (result, tree) := m.tree.makeDirectories path
    (result, { m with tree })
  writeFile path content := change fun t => t.writeFile path content

end Machine

end TagScript
