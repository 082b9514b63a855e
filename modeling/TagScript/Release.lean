import TagScript.Text.Json
import TagScript.Text.Style

/-!
# Release information

The version of the tool, and the revision and date of its build where they are known.
-/

namespace TagScript

/-- What is known about a build of the tool; an empty text is not known. -/
structure Release where
  version : Bytes
  revision : Bytes := []
  date : Bytes := []
  deriving DecidableEq, Repr

namespace Release

/-- The text without terminal escape sequences: an escape character and a square bracket, and
all that follows up to a byte from `@` to `~`. `inside` tells whether one is being passed. -/
def dropEscapes (inside : Bool) : Bytes → Bytes
  | [] => []
  | [c] => if inside then [] else [c]
  | c :: d :: text =>
    if inside then dropEscapes (c < '@' || '~' < c) (d :: text)
    else if c = 0x1B && d = '[' then dropEscapes true text
    else c :: dropEscapes false (d :: text)

/-- A version as plain text; `dev` when nothing is left of it. -/
def plainVersion (version : Bytes) : Bytes :=
  let plain := dropEscapes false version
  if plain.isEmpty then "dev" else plain

/-- The version of this release, each number in a colour of its own. -/
def styledVersion (color : Bool) : Bytes :=
  Style.paint color [.yellow, .bold] "0" ++ "." ++ Style.paint color [.green, .bold] "1" ++ "." ++
    Style.paint color [.blue, .bold] "0" ++ "-dev"

/-- This release. -/
def current : Release := { version := plainVersion (styledVersion true) }

/-- A text, or `unknown` for an empty one. -/
def orUnknown (text : Bytes) : Bytes := if text.isEmpty then "unknown" else text

/-- A field for a text, left out when it is empty. -/
def optionalField (name text : Bytes) : List (Bytes × Json) :=
  if text.isEmpty then [] else [(name, .text text)]

/-- The release as a JSON object on lines of its own. -/
def json (r : Release) : Bytes :=
  (Json.object ((utf8 "version", .text r.version) :: optionalField "git_commit" r.revision ++
    optionalField "build_date" r.date)).indented 0 ++ "\n"

/-- This release in words. -/
def summary (color : Bool) : Bytes :=
  "zl " ++ styledVersion color ++ "\ncommit: " ++ orUnknown current.revision ++ "\nbuilt:  " ++
    orUnknown current.date ++ "\n"

end Release

end TagScript
