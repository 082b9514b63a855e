import TagScript.Check.Call
import TagScript.Rule.Declaring
import TagScript.Rule.Stripping

/-!
# Checking and stripping a token tree

The tree is walked level by level. On each level the declaration tags are recorded and taken
out, the rules of the level are collected, and then its blocks are treated in order: the
content of a declaring block is stripped, a call of a rule is checked, and anything else is a
level of its own. Walking goes on after a failure, so that all faults of a script are found.
-/

namespace TagScript

/-- What a check may be told to do differently. -/
structure CheckOptions where
  /-- Rules of enclosing levels are visible in nested levels. -/
  inheritRules : Bool := false
  /-- The tagged parameters of declarations are recorded like tagged variables. -/
  tagParameters : Bool := false
  /-- How many diagnostics are kept; all of them unless this is positive. -/
  maxDiagnostics : Int := 0
  deriving DecidableEq, Repr

/-- What a check has found so far. -/
@[ext]
structure Findings where
  tags : TagMap := {}
  rules : List Rule := []
  diagnostics : List Diagnostic := []
  /-- How many diagnostics were raised, those past the cap included. -/
  raised : Nat := 0

namespace Findings

/-- Whether the check failed. -/
def failed (f : Findings) : Bool := 0 < f.raised

/-- Raise a diagnostic; past the cap it is only counted. -/
def raise (options : CheckOptions) (f : Findings) (d : Diagnostic) : Findings :=
  if 0 < options.maxDiagnostics && options.maxDiagnostics ≤ f.diagnostics.length then
    { f with raised := f.raised + 1 }
  else { f with diagnostics := f.diagnostics ++ [d], raised := f.raised + 1 }

/-- Raise diagnostics in order. -/
def raiseAll (options : CheckOptions) (f : Findings) (ds : List Diagnostic) : Findings :=
  ds.foldl (raise options) f

end Findings

/-- Record the declaration tags of a level. -/
def recordTags (tags : TagMap) (tokens : List Token) : TagMap :=
  tokens.foldl (fun tags token => match Tag.parse? token.head with
    | some tag => tags.define tag.name tag.type
    | none => tags) tags

/-- Record the parameters of rules. -/
def recordParameters (tags : TagMap) (rules : List Rule) : TagMap :=
  rules.foldl (fun tags rule =>
    rule.parameters.foldl (fun tags p => tags.define p.name p.type) tags) tags

/-- Enter a level: record its tags and collect its rules. The scope holds them from now on, and
those of the enclosing levels behind them if they are inherited. -/
def enterLevel (options : CheckOptions) (enclosing : Scope) (tokens : List Token)
    (f : Findings) : Scope × Findings :=
  let rules := declaredRules (tokens.map Token.untag)
  let tags := recordTags f.tags tokens
  let tags := if options.tagParameters then recordParameters tags rules else tags
  (RuleTable.ofRules rules :: (if options.inheritRules then enclosing else []),
    { f with tags, rules := f.rules ++ rules })

mutual

/-- Check and strip one token of a level, given whether it is a declaring block. -/
def checkToken (options : CheckOptions) (scope : Scope) (declares : Bool) (f : Findings) :
    Token → Token × Findings
  | .leaf text offset => (.leaf (untagged text) offset, f)
  | .block signature children offset =>
    let signature := untagged signature
    if declares then (.block signature (Token.stripAll children) offset, f)
    else
      let name := callName signature
      match scope.lookup? name with
      | some rule =>
        if Token.sameAll children rule.declaration then
          (.block signature (Token.stripAll children) offset, f)
        else
          (.block signature children offset,
            f.raiseAll options (callFaults f.tags name rule children offset))
      | none =>
        let (inner, f) := enterLevel options scope children f
        let (children, f) := checkTokens options inner f children
        (.block signature children offset, f)

/-- Check and strip the tokens of a level in order. -/
def checkTokens (options : CheckOptions) (scope : Scope) (f : Findings) :
    List Token → List Token × Findings
  | [] => ([], f)
  | t :: ts =>
    let declares := t.untag.declares (ts.head?.map Token.untag)
    let (t, f) := checkToken options scope declares f t
    let (ts, f) := checkTokens options scope f ts
    (t :: ts, f)

end

/-- Check a token tree and strip its tags, going on from what was found before. The tree is
stripped whether or not the check fails. -/
def checkFrom (options : CheckOptions) (f : Findings) (tokens : List Token) :
    List Token × Findings :=
  let (scope, f) := enterLevel options [] tokens f
  checkTokens options scope f tokens

/-- Check a token tree and strip its tags. -/
def checkAndStrip (options : CheckOptions) (tokens : List Token) : List Token × Findings :=
  checkFrom options {} tokens

end TagScript
