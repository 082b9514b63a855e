import TagScript.Compile
import TagScript.Files.Host
import TagScript.Text.CaseFold
import TagScript.Text.Quoted
import TagScript.Text.Space
import TagScript.Toml.Table

/-!
# Project files

A project file says which scripts are compiled, where to, and how they are checked. It is looked
for in a directory and in those above it; what it does not say has a default.
-/

namespace TagScript

/-- The settings of a project. -/
structure Config where
  /-- The file or directory that is compiled. -/
  input : Bytes := "src"
  /-- The directory that the results are written to. -/
  out : Bytes := "dist"
  sourceExt : Bytes := ".zl"
  targetExt : Bytes := ".js"
  /-- How many files may be compiled at a time; zero leaves it to the machine. -/
  jobs : Int := 0
  inheritRules : Bool := false
  tagParameters : Bool := false
  maxDepth : Int := defaultMaxDepth
  maxDiagnostics : Int := 0
  /-- The file that the settings come from; empty for defaults. -/
  path : Bytes := []
  deriving DecidableEq, Repr

/-- Why settings are refused. -/
inductive ConfigFault where
  | emptyInput
  | emptyOut
  | badSourceExt (ext : Bytes)
  | badTargetExt (ext : Bytes)
  | sameExt
  | negativeJobs (jobs : Int)
  | badDepth (depth : Int)
  | negativeDiagnostics (count : Int)
  deriving DecidableEq, Repr

/-- The fault in words. -/
def ConfigFault.message : ConfigFault → Bytes
  | .emptyInput => "[build].input must not be empty"
  | .emptyOut => "[build].out must not be empty"
  | .badSourceExt ext => "[build].source_ext must start with '.', got " ++ quoted ext
  | .badTargetExt ext => "[build].target_ext must start with '.', got " ++ quoted ext
  | .sameExt => "[build].source_ext and [build].target_ext must differ"
  | .negativeJobs jobs => "[build].jobs must be >= 0, got " ++ decimalInt jobs
  | .badDepth depth => "[check].max_depth must be > 0, got " ++ decimalInt depth
  | .negativeDiagnostics count => "[check].max_diagnostics must be >= 0, got " ++ decimalInt count

/-- Why no settings could be had. -/
inductive ConfigError where
  /-- The settings are refused; they may come from a file. -/
  | refused (path : Option Bytes) (fault : ConfigFault)
  /-- The project file could not be read. -/
  | unreadable (path : Bytes) (error : FileError)
  /-- The project file is no TOML document, or a setting has a value of the wrong type. -/
  | malformed (path : Bytes)
  /-- Looking for a project file failed. -/
  | lookup (path : Bytes) (error : FileError)
  deriving DecidableEq, Repr

/-- The error in words. -/
def ConfigError.message : ConfigError → Bytes
  | .refused none fault => fault.message
  | .refused (some path) fault => path ++ ": " ++ fault.message
  | .unreadable path error => path ++ ": failed to parse TOML: " ++ error.message
  | .malformed path => path ++ ": failed to parse TOML: malformed project file"
  | .lookup path error => "failed to stat " ++ quoted path ++ ": " ++ error.message

namespace Config

/-- Whether a text is a point with something behind it. -/
def isExtension (ext : Bytes) : Bool := ext.startsWith "." && 2 ≤ ext.length

/-- The first fault of some settings. -/
def fault? (c : Config) : Option ConfigFault :=
  if c.input.isBlank then some .emptyInput
  else if c.out.isBlank then some .emptyOut
  else if !isExtension c.sourceExt then some (.badSourceExt c.sourceExt)
  else if !isExtension c.targetExt then some (.badTargetExt c.targetExt)
  else if c.sourceExt = c.targetExt then some .sameExt
  else if c.jobs < 0 then some (.negativeJobs c.jobs)
  else if c.maxDepth ≤ 0 then some (.badDepth c.maxDepth)
  else if c.maxDiagnostics < 0 then some (.negativeDiagnostics c.maxDiagnostics)
  else none

/-- Settings that have no fault. -/
def validate (c : Config) : Except ConfigError Config :=
  match c.fault? with
  | some fault => .error (.refused none fault)
  | none => .ok c

/-- How scripts are compiled under some settings. -/
def compileOptions (c : Config) : CompileOptions :=
  { inheritRules := c.inheritRules
    tagParameters := c.tagParameters
    maxDiagnostics := c.maxDiagnostics
    maxDepth := c.maxDepth }

/-- The one of some names that a key stands for: the key itself, or a name that differs from it in
case alone. -/
def nameFor? (names : List Bytes) (key : Bytes) : Option Bytes :=
  if names.contains key then some key else names.find? (equalFold key)

/-- A text, and nothing else. -/
def text? : Toml.Value → Option Bytes
  | .text value => some value
  | _ => none

/-- An integer, and nothing else. -/
def integer? : Toml.Value → Option Int
  | .integer value => some value
  | _ => none

/-- A truth value, and nothing else. -/
def boolean? : Toml.Value → Option Bool
  | .boolean value => some value
  | _ => none

/-- A table, and nothing else. -/
def table? : Toml.Value → Option Toml.Table
  | .table fields => some fields
  | _ => none

/-- The settings that say what is compiled. -/
def buildSettings : List (Bytes × (Config → Toml.Value → Option Config)) :=
  [("input", fun c v => do return { c with input := ← text? v }),
    ("out", fun c v => do return { c with out := ← text? v }),
    ("source_ext", fun c v => do return { c with sourceExt := ← text? v }),
    ("target_ext", fun c v => do return { c with targetExt := ← text? v }),
    ("jobs", fun c v => do return { c with jobs := ← integer? v })]

/-- The settings that say how scripts are checked. -/
def checkSettings : List (Bytes × (Config → Toml.Value → Option Config)) :=
  [("inherit_rules", fun c v => do return { c with inheritRules := ← boolean? v }),
    ("tag_parameters", fun c v => do return { c with tagParameters := ← boolean? v }),
    ("max_depth", fun c v => do return { c with maxDepth := ← integer? v }),
    ("max_diagnostics", fun c v => do return { c with maxDiagnostics := ← integer? v })]

/-- Take over the settings that a table names; names that are not known are passed over. -/
def takeOver? (settings : List (Bytes × (Config → Toml.Value → Option Config))) :
    Toml.Table → Config → Option Config
  | [], c => some c
  | (key, value) :: rest, c =>
    match (nameFor? (settings.map (·.1)) key).bind (List.lookup · settings) with
    | some set => do takeOver? settings rest (← set c value)
    | none => takeOver? settings rest c

/-- The sections of a project file. -/
def sections : List (Bytes × (Config → Toml.Value → Option Config)) :=
  [("build", fun c v => do takeOver? buildSettings (← table? v) c),
    ("check", fun c v => do takeOver? checkSettings (← table? v) c)]

/-- The settings of a project file. -/
def parse? (document : Bytes) : Option Config := do
  takeOver? sections (← Toml.parse? document) {}

/-- A path as it is written in a project file, seen from outside. -/
def resolvePath (root : Path) (path : Bytes) : Bytes :=
  let path := Path.ofText path
  if path.rooted then path.text else (root.join path).text

/-- The settings of a project file at a path. -/
def ofDocument (path document : Bytes) : Except ConfigError Config :=
  match parse? document with
  | none => .error (.malformed path)
  | some c =>
    let root := (Path.ofText path).directory
    let c := { c with
      path := path
      input := resolvePath root c.input
      out := resolvePath root c.out }
    match c.fault? with
    | some fault => .error (.refused (some path) fault)
    | none => .ok c

variable {m : Type → Type} [Monad m] [MonadHost m]

/-- Read the settings of a project file. -/
def load (path : Bytes) : m (Except ConfigError Config) := do
  match ← MonadHost.readFile (Path.ofText path) with
  | .error e => return .error (.unreadable path e)
  | .ok document => return ofDocument path document

/-- The name of project files. -/
def fileName : Bytes := "zl.toml"

/-- Look for a project file in the directory at a path. -/
def findIn (directory : Path) : m (Except ConfigError (Option Bytes)) := do
  let candidate := directory.join (Path.ofText fileName)
  match ← MonadHost.look candidate with
  | .ok _ => return .ok (some candidate.text)
  | .error e =>
    if e.fault = .missing then return .ok none else return .error (.lookup candidate.text e)

/-- Look for a project file in a directory and in those above it. The directory is given by its
parts from the root, the last one in front. -/
def findFrom : List Bytes → m (Except ConfigError (Option Bytes))
  | [] => findIn ⟨true, []⟩
  | part :: above => do
    match ← findIn ⟨true, (part :: above).reverse⟩ with
    | .ok none => findFrom above
    | found => return found

/-- Look for a project file from a directory on upwards. -/
def find (start : Bytes) : m (Except ConfigError (Option Bytes)) := do
  let here ← MonadHost.workingDirectory
  findFrom ((Path.ofText start).absolute here).parts.reverse

/-- The settings of the nearest project file, or the defaults when there is none. -/
def discover (start : Bytes) : m (Except ConfigError Config) := do
  match ← find start with
  | .error e => return .error e
  | .ok none => return .ok {}
  | .ok (some path) => load path

end Config

end TagScript
