import TagScript.Text.Space

/-!
# Recorded types

The types of tagged variables by name. A later declaration of a name replaces the earlier one,
and a name recorded without a type counts as missing.
-/

namespace TagScript

/-- Names with their recorded types, in bytewise order of the names. -/
structure TagMap where
  bindings : List (Bytes × Bytes) := []
  deriving DecidableEq, Repr

namespace TagMap

/-- Put a binding in its place, over an earlier one of the same name. -/
def insert (name type : Bytes) : List (Bytes × Bytes) → List (Bytes × Bytes)
  | [] => [(name, type)]
  | (n, t) :: rest =>
    if n = name then (name, type) :: rest
    else if Bytes.le name n then (name, type) :: (n, t) :: rest
    else (n, t) :: insert name type rest

/-- Record the type of a name, trimmed. -/
def define (map : TagMap) (name type : Bytes) : TagMap := ⟨insert name type.trim map.bindings⟩

/-- The recorded type of a name; an empty one counts as missing. -/
def lookup? (map : TagMap) (name : Bytes) : Option Bytes :=
  (map.bindings.lookup name).filter (!·.isEmpty)

/-- The recorded names in order. -/
def names (map : TagMap) : List Bytes := map.bindings.map Prod.fst

/-- How many names are recorded. -/
def size (map : TagMap) : Nat := map.bindings.length

end TagMap

end TagScript
