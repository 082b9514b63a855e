import TagScript.Tag.Parameter
import TagScript.Token.Basic

/-!
# Rules

A rule is what a named function declares about its parameters. The rules declared among
siblings form a table; the tables of enclosing levels may be visible behind it.
-/

namespace TagScript

/-- The parameters that calls of a name are checked against. -/
structure Rule where
  name : Bytes
  parameters : List Parameter
  /-- The content of the declaring block before anything was stripped from it. -/
  declaration : List Token
  offset : Nat
  deriving DecidableEq

/-- The rules of one level, one for each name. -/
abbrev RuleTable := List Rule

namespace RuleTable

/-- The table with the rule in place of an earlier one of its name. -/
def define (table : RuleTable) (rule : Rule) : RuleTable :=
  rule :: table.filter (·.name ≠ rule.name)

/-- The table of a sequence of rules; of one name the last rule counts. -/
def ofRules (rules : List Rule) : RuleTable := rules.foldl define []

/-- The rule of a name. -/
def find? (table : RuleTable) (name : Bytes) : Option Rule := List.find? (·.name = name) table

end RuleTable

/-- The tables visible at some place, the innermost first. -/
abbrev Scope := List RuleTable

/-- The rule that a call of the name is checked against: the innermost of that name. -/
def Scope.lookup? (scope : Scope) (name : Bytes) : Option Rule :=
  if name.isEmpty then none else scope.findSome? (RuleTable.find? · name)

end TagScript
