import TagScript.Text.Bytes

/-!
# Paths

A path is a list of parts, from the root of the file system or from the working directory. Parts
may be empty or name the directory itself or the one above; a clean path has none of these, but
for the steps upwards in front of a path that does not start at the root. Cleaning looks at the
path alone and never at the files.
-/

namespace TagScript

/-- The name of a directory inside itself. -/
def selfName : Bytes := "."

/-- The name of the directory above. -/
def upName : Bytes := ".."

/-- A path, from the root or from the working directory. -/
structure Path where
  rooted : Bool
  parts : List Bytes
  deriving DecidableEq, Repr

namespace Path

/-- The path that a text spells, as it stands. -/
def ofText (text : Bytes) : Path :=
  match Bytes.after? "/" text with
  | some rest => ⟨true, Bytes.split '/' rest⟩
  | none => ⟨false, Bytes.split '/' text⟩

/-- The text of a path. -/
def text (p : Path) : Bytes :=
  if p.rooted then "/" ++ Bytes.join "/" p.parts
  else if p.parts.isEmpty then selfName
  else Bytes.join "/" p.parts

/-- Go on from the parts walked so far, the last one in front, to the next part. -/
def step (rooted : Bool) (walked : List Bytes) (part : Bytes) : List Bytes :=
  if part.isEmpty || part = selfName then walked
  else if part = upName then
    match walked with
    | [] => if rooted then [] else [part]
    | last :: before => if last = upName then part :: walked else before
  else part :: walked

/-- The parts of a path without empty ones and steps that lead back. -/
def cleanParts (rooted : Bool) (parts : List Bytes) : List Bytes :=
  (parts.foldl (step rooted) []).reverse

/-- The shortest path that leads to the same place. -/
def clean (p : Path) : Path := ⟨p.rooted, cleanParts p.rooted p.parts⟩

/-- The clean path that goes on from one path along another. -/
def join (p q : Path) : Path := clean ⟨p.rooted, p.parts ++ q.parts⟩

/-- The clean path of the directory that holds what a path leads to. -/
def directory (p : Path) : Path := clean ⟨p.rooted, p.parts.dropLast⟩

/-- The clean path from the root, for a path that may start at the working directory. -/
def absolute (p workingDirectory : Path) : Path :=
  if p.rooted then p.clean else workingDirectory.join p

/-- The last part of a path that is not empty; without one, the text of the path. -/
def lastPart (p : Path) : Bytes :=
  ((p.parts.filter (!·.isEmpty)).getLast?).getD (if p.rooted then "/" else selfName)

/-- The way up out of `start` and then on along `goal`. There is none out of a directory whose name
is not known. -/
def wayOver? (start goal : List Bytes) : Option (List Bytes) :=
  if start.head? = some upName then none else some (start.map (fun _ => upName) ++ goal)

/-- The parts of the way from one place to another. It goes up from what the second place does not
share with the first, and on along the rest of the second. -/
def wayParts? : List Bytes → List Bytes → Option (List Bytes)
  | start :: rest, goal :: more =>
    if start = goal then wayParts? rest more else wayOver? (start :: rest) (goal :: more)
  | start, goal => wayOver? start goal

/-- The text of the way from a directory to a path; none when the paths alone do not tell it. -/
def wayText? (directory p : Path) : Option Bytes :=
  if directory.rooted = p.rooted then
    (wayParts? directory.clean.parts p.clean.parts).map fun parts => text ⟨false, parts⟩
  else none

/-- Whether the text of a way is neither the step up nor starts with it. -/
def staysInside (way : Bytes) : Bool :=
  way = selfName || way ≠ upName && !Bytes.startsWith way "../"

/-- Whether a path is a directory or lies below it. -/
def within (p directory : Path) : Bool := (wayText? directory p).any staysInside

/-- Whether one of two paths lies within the other. -/
def overlaps (p q : Path) : Bool := p.within q || q.within p

end Path

end TagScript
