import TagScript.Files.Path

/-!
# What a program needs of its machine

Programs read, write and remove files, know where they are and who runs them, and read a clock.
They are written for any monad that offers these operations, so that they run on a machine as
well as on a model of one.
-/

namespace TagScript

/-- Why a file operation failed. -/
inductive FileFault where
  | missing
  | notDirectory
  | isDirectory
  | occupied
  | invalid
  | nameTooLong
  | other (text : Bytes)
  deriving DecidableEq, Repr

namespace FileFault

/-- The fault in words. -/
def message : FileFault → Bytes
  | .missing => "no such file or directory"
  | .notDirectory => "not a directory"
  | .isDirectory => "is a directory"
  | .occupied => "file exists"
  | .invalid => "invalid argument"
  | .nameTooLong => "file name too long"
  | .other text => text

/-- How many bytes the text of a path may have. -/
def maxTextLength : Nat := 4095

/-- How many bytes the name of a file may have. -/
def maxNameLength : Nat := 255

/-- Why a text is refused as a path wherever it may lead: it holds a zero byte, or is too long. -/
def ofText? (text : Bytes) : Option FileFault :=
  if text.contains 0 then some .invalid
  else if maxTextLength < text.length then some .nameTooLong
  else none

end FileFault

/-- A file operation. -/
inductive FileAction where
  | look
  | openFile
  | readFile
  | makeDirectory
  | remove
  deriving DecidableEq, Repr

/-- The name of a file operation. -/
def FileAction.name : FileAction → Bytes
  | .look => "stat"
  | .openFile => "open"
  | .readFile => "read"
  | .makeDirectory => "mkdir"
  | .remove => "unlinkat"

/-- A file operation that failed. -/
structure FileError where
  action : FileAction
  path : Bytes
  fault : FileFault
  deriving DecidableEq, Repr

/-- The error in words. -/
def FileError.message (e : FileError) : Bytes :=
  e.action.name ++ " " ++ e.path ++ ": " ++ e.fault.message

/-- What a path leads to. -/
inductive NodeKind where
  | file
  | directory
  deriving DecidableEq, Repr

/-- The operations that programs ask for. -/
class MonadHost (m : Type → Type) where
  /-- The directory that other paths start from; a clean path from the root. -/
  workingDirectory : m Path
  /-- The name of the user. -/
  userName : m Bytes
  /-- The time in nanoseconds since some moment in the past. -/
  now : m Nat
  /-- What a path leads to. -/
  look : Path → m (Except FileError NodeKind)
  /-- The content of a file. -/
  readFile : Path → m (Except FileError Bytes)
  /-- The files below a directory, in any order. -/
  filesBelow : Path → m (List Path)
  /-- Remove what a path leads to, and all below it; nothing happens when there is nothing. -/
  removeAll : Path → m (Except FileError Unit)
  /-- Make a directory and those on the way to it; nothing happens when it is there. -/
  makeDirectories : Path → m (Except FileError Unit)
  /-- Give a file a content; the directory it lies in must be there. -/
  writeFile : Path → Bytes → m (Except FileError Unit)

end TagScript
