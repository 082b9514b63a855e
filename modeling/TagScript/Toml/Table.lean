import TagScript.Toml.Read

/-!
# The tables of a TOML document

Statements are carried out one after another on a growing table. A key may be assigned once. A
table that was only named on the way to another one may be defined later, and the last table of
an array of tables is the one that later keys lead into.
-/

namespace TagScript.Toml

/-- A value of a document. -/
inductive Value where
  | text (value : Bytes)
  | integer (value : Int)
  | float (word : Bytes)
  | boolean (value : Bool)
  | moment (word : Bytes)
  | array (items : List Value)
  | table (fields : List (Bytes × Value))
  | tables (rows : List (List (Bytes × Value)))

/-- Named values in the order in which they were first named. -/
abbrev Table := List (Bytes × Value)

namespace Table

/-- The table with a name's value replaced or added. -/
def put (name : Bytes) (value : Value) : Table → Table
  | [] => [(name, value)]
  | (n, v) :: fields => if n = name then (n, value) :: fields else (n, v) :: put name value fields

/-- The table that a key leads to. -/
def at? : Key → Table → Option Table
  | [], t => some t
  | name :: key, t =>
    match t.lookup name with
    | some (.table fields) => at? key fields
    | some (.tables rows) => rows.getLast?.bind (at? key)
    | _ => none

/-- The table with the table that a key leads to changed, if there is one. -/
def modifyAt (f : Table → Table) : Key → Table → Table
  | [], t => f t
  | name :: key, t =>
    match t.lookup name with
    | some (.table fields) => put name (.table (modifyAt f key fields)) t
    | some (.tables rows) =>
      put name (.tables (rows.dropLast ++ rows.getLast?.toList.map (modifyAt f key))) t
    | _ => t

end Table

/-- A document that is being put together. -/
structure Builder where
  root : Table := []
  /-- Tables that were only named on the way to something else. -/
  implicit : List Key := []
  /-- Keys under which an array is noted. -/
  arrays : List Key := []

namespace Builder

/-- Count a key among those that were only named on the way. -/
def addImplicit (key : Key) (b : Builder) : Builder := { b with implicit := key :: b.implicit }

/-- No longer count a key among those that were only named on the way. -/
def removeImplicit (key : Key) (b : Builder) : Builder :=
  { b with implicit := b.implicit.filter (· ≠ key) }

/-- The key under which it is noted what the value of a name is. The empty name has no note of its
own: it shares that of the table it stands in. -/
def noteKey (context : Key) (name : Bytes) : Key :=
  if name.isEmpty && !context.isEmpty then context else context ++ [name]

/-- Note under a key whether a value is an array. -/
def noteArray (key : Key) (isArray : Bool) (b : Builder) : Builder :=
  let others := b.arrays.filter (· ≠ key)
  { b with arrays := if isArray then key :: others else others }

/-- Put a value into the table that `context` leads to. -/
def put (context : Key) (name : Bytes) (value : Value) (b : Builder) : Builder :=
  { b with root := Table.modifyAt (Table.put name value) context b.root }

/-- Give a name a value in the table that `context` leads to. An array may be replaced. A table
that was only named on the way stays as it is and counts as defined from now on. -/
def set? (context : Key) (name : Bytes) (value : Value) (b : Builder) : Option Builder := do
  let key := context ++ [name]
  let table ← Table.at? context b.root
  if (table.lookup name).isNone then return b.put context name value
  else if b.arrays.contains key then return (b.put context name value).removeImplicit key
  else if b.implicit.contains key then return b.removeImplicit key
  else none

/-- Make the tables on the way to a key that are not there yet. -/
def enter? (context : Key) : Key → Builder → Option Builder
  | [], b => some b
  | [_], b => some b
  | name :: rest, b => do
    let here := context ++ [name]
    match (← Table.at? context b.root).lookup name with
    | none => enter? here rest ((b.put context name (.table [])).addImplicit here)
    | some (.table _) => enter? here rest b
    | some (.tables _) => enter? here rest b
    | some _ => none

/-- Define the table at a key, or append one to the array of tables at it. -/
def define? (key : Key) (inArray : Bool) (b : Builder) : Option Builder := do
  let b ← b.enter? [] key
  let context := key.dropLast
  let name ← key.getLast?
  if inArray then
    match (← Table.at? context b.root).lookup name with
    | none => return b.put context name (.tables [[]])
    | some (.tables rows) => return b.put context name (.tables (rows ++ [[]]))
    | some _ => none
  else b.set? context name (.table [])

/-- Open the tables that a key with several names passes through, outermost first. -/
def openAll? (context : Key) : Key → Builder → Option Builder
  | [], b => some b
  | [_], b => some b
  | name :: rest, b => do
    let here := context ++ [name]
    openAll? here rest (← (b.addImplicit here).define? here false)

end Builder

/-- Whether a value is an array. -/
def Value.isArray : Value → Bool
  | .array _ => true
  | _ => false

mutual

/-- The value that is written at a key, with what it leaves behind in the document. -/
def Expr.build? (context : Key) (name : Bytes) (inArray : Bool) :
    Expr → Builder → Option (Value × Builder)
  | .text value, b => some (.text value, b)
  | .integer value, b => some (.integer value, b)
  | .float word, b => some (.float word, b)
  | .boolean value, b => some (.boolean value, b)
  | .moment word, b => some (.moment word, b)
  | .array items, b => do
    let b := b.noteArray (Builder.noteKey context name) true
    let (values, b) ← buildItems? context name items b
    return (.array values, b)
  | .inlineTable fields, b => do
    let here := context ++ [name]
    let (table, b) ← buildFields? here fields [] (← (b.addImplicit here).define? here inArray)
    return (.table table, b)

/-- The values of an array. -/
def buildItems? (context : Key) (name : Bytes) : List Expr → Builder → Option (List Value × Builder)
  | [], b => some ([], b)
  | item :: items, b => do
    let (value, b) ← item.build? context name true b
    let (values, b) ← buildItems? context name items b
    return (value :: values, b)

/-- The fields of an inline table after those already read. A field counts by the last name of its
key. -/
def buildFields? (context : Key) :
    List (Key × Expr) → Table → Builder → Option (Table × Builder)
  | [], t, b => some (t, b)
  | (key, value) :: fields, t, b => do
    let inner := context ++ key.dropLast
    let name ← key.getLast?
    let (value, b) ← value.build? inner name false (← b.openAll? context key)
    let b ← b.set? inner name value
    let b := b.noteArray (Builder.noteKey inner name) value.isArray
    buildFields? context fields (Table.put name value t) b

end

/-- Carry out statements in the table that `context` leads to. -/
def buildAll? (context : Key) : List Statement → Builder → Option Builder
  | [], b => some b
  | .table key :: rest, b => do buildAll? key rest ((← b.define? key false).noteArray key false)
  | .tableInArray key :: rest, b => do
    buildAll? key rest ((← b.define? key true).noteArray key false)
  | .assign key value :: rest, b => do
    let (_, b) ← buildFields? context [(key, value)] [] b
    buildAll? context rest b

/-- The table that a document describes. -/
def parse? (document : Bytes) : Option Table := do
  let statements ← read? document
  return (← buildAll? [] statements {}).root

end TagScript.Toml
