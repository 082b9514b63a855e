import TagScript.Check.Walk
import TagScript.Token.Scan

/-!
# Compiling a script

A script is split into tokens, checked, stripped of its tags and written out again. A script
that cannot be split, or that fails the check, yields diagnostics instead.
-/

namespace TagScript

/-- How a script is compiled. -/
structure CompileOptions extends CheckOptions where
  /-- How deep brackets may nest; anything below one means the default. -/
  maxDepth : Int := 0
  deriving DecidableEq, Repr

/-- What compiling a script yields. -/
structure Compiled where
  output : Bytes := []
  diagnostics : List Diagnostic := []
  /-- The stripped tokens; none when there are diagnostics. -/
  tokens : List Token := []
  /-- The recorded types; none at all when the script could not be split. -/
  tags : Option TagMap := none
  rules : List Rule := []

/-- Whether compiling failed. -/
def Compiled.failed (c : Compiled) : Bool := !c.diagnostics.isEmpty

/-- Compile a script. Diagnostics come with their lines and columns. -/
def compile (options : CompileOptions) (source : Bytes) : Compiled :=
  match scan (nestingLimit options.maxDepth) source with
  | .error e => { diagnostics := [.ofScanError source e options.maxDepth] }
  | .ok tokens =>
    let (stripped, findings) := checkAndStrip options.toCheckOptions tokens
    if findings.failed then
      { diagnostics := findings.diagnostics.map (Diagnostic.locate source)
        tags := findings.tags
        rules := findings.rules }
    else
      { output := Token.render stripped
        tokens := stripped
        tags := findings.tags
        rules := findings.rules }

end TagScript
