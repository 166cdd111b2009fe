import PayoffPricing.Toml.Value
/-!
How the sections of a document make one table. A name is given a value once, and a table is opened
by one header; a header may go below the tables of others, and a dotted key only below tables that
dotted keys or headers further down have made.
-/

namespace PayoffPricing.Toml

/-- A dotted key: the names of the tables on the way, and the name in the last of them. -/
structure Key where
  tables : List String
  name : String

inductive Header where
  /-- The start of a document. -/
  | top
  /-- A header of a table. -/
  | table (key : Key)
  /-- A header of one more table in a list of tables. -/
  | row (key : Key)

/-- A header with the assignments below it. -/
structure Section where
  header : Header
  assignments : List (Key × Value)

/-- What has made a table. -/
inductive Origin where
  | header
  /-- A header that goes further down. -/
  | passage
  | dottedKey
deriving DecidableEq

/-- An entry of a table to which sections are being added. -/
inductive Node where
  | value (v : Value)
  | table (origin : Origin) (entries : List (String × Node))
  | rows (tables : List (List (String × Node)))

abbrev Nodes := List (String × Node)

mutual

/-- The value that is left when all sections have been added. -/
def Node.finish : Node → Value
  | .value v => v
  | .table _ entries => .table (Nodes.finish entries)
  | .rows tables => .list (Nodes.finishAll tables)

def Nodes.finish : List (String × Node) → List (String × Value)
  | [] => []
  | (name, node) :: rest => (name, node.finish) :: Nodes.finish rest

def Nodes.finishAll : List (List (String × Node)) → List Value
  | [] => []
  | entries :: rest => .table (Nodes.finish entries) :: Nodes.finishAll rest

end

namespace Nodes

def replace (name : String) (node : Node) (t : Nodes) : Nodes :=
  t.map fun (other, old) => if other == name then (other, node) else (other, old)

/-- Changes the table at the end of a way down. Tables that are missing on the way are made. -/
def descend (dotted : Bool) (change : Origin → Nodes → Option Nodes) :
    List String → Origin → Nodes → Option Nodes
  | [], origin, t => change origin t
  | name :: way, _, t =>
    match t.lookup name with
    | none => do
      let origin := if dotted then Origin.dottedKey else .passage
      return t ++ [(name, .table origin (← descend dotted change way origin []))]
    | some (.value _) => none
    | some (.table origin inner) =>
      if dotted && origin == .header then none
      else do return replace name (.table origin (← descend dotted change way origin inner)) t
    | some (.rows tables) => do
      let last ← descend dotted change way .header (← tables.getLast?)
      return replace name (.rows (tables.dropLast ++ [last])) t

/-- Gives a value to a key of a table that a header has opened. -/
def assign (key : Key) (v : Value) (t : Nodes) : Option Nodes :=
  descend true (fun origin t =>
    if (origin == .dottedKey) == key.tables.isEmpty || (t.lookup key.name).isSome then none
    else some (t ++ [(key.name, .value v)])) key.tables .header t

/-- Gives values to keys, in order. -/
def assignAll (assignments : List (Key × Value)) (t : Nodes) : Option Nodes :=
  assignments.foldlM (fun t (key, v) => assign key v t) t

end Nodes

/-- A document with one more section. -/
def Section.addTo (s : Section) (t : Nodes) : Option Nodes :=
  let fill := Nodes.assignAll s.assignments
  match s.header with
  | .top => fill t
  | .table key => Nodes.descend false (fun _ t =>
      match t.lookup key.name with
      | none => do return t ++ [(key.name, .table .header (← fill []))]
      | some (.table .passage inner) => do
        return Nodes.replace key.name (.table .header (← fill inner)) t
      | _ => none) key.tables .header t
  | .row key => Nodes.descend false (fun _ t =>
      match t.lookup key.name with
      | none => do return t ++ [(key.name, .rows [← fill []])]
      | some (.rows tables) => do
        return Nodes.replace key.name (.rows (tables ++ [← fill []])) t
      | _ => none) key.tables .header t

/-- The table that sections make together. -/
def Value.ofSections? (sections : List Section) : Option Value := do
  return .table (Nodes.finish (← sections.foldlM (fun t s => s.addTo t) []))

/-- The table that assignments make by themselves. -/
def Value.ofAssignments? (assignments : List (Key × Value)) : Option Value :=
  Value.ofSections? [⟨.top, assignments⟩]

end PayoffPricing.Toml
