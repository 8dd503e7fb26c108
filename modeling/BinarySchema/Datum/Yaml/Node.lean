import BinarySchema.Datum.Yaml.Mark

/-!
# Nodes of a YAML document

A document before its plain scalars are read: scalars, and lists and maps of nodes. A map can take
over the entries of others, which stand behind its `<<`. Data are read level by level, so of several
faults the one nearest to the root is met first.
-/

namespace BinarySchema.Datum.Yaml

inductive Node where
  | plain (text : String)
  | quoted (value : Datum)
  | list (items : List Node)
  | map (entries : List (Node × Node))
  deriving Repr, Inhabited

namespace Node

/-- The node of something that is left out. -/
def empty : Node := .plain ""

/-! ### Merged maps -/

/-- The entries that a map takes over from a value: those of a map, or of the maps in a list, where
the first one prevails. -/
def taken? : Node → Option (List (Node × Node))
  | .map entries => some entries
  | .list items =>
    let entries? : Node → Option (List (Node × Node))
      | .map entries => some entries
      | _ => none
    (items.mapM entries?).map fun all => all.reverse.flatten
  | _ => none

/-- The entries of a map behind those that it takes over. Where it cannot take over a value, the
entry that asks for it stands in front. -/
def mergeTaken (entries : List (Node × Node)) : List (Node × Node) :=
  let (merges, own) := entries.partition fun entry =>
    match entry.1 with
    | .plain "<<" => true
    | _ => false
  let (taken, refused) := merges.partition fun entry => entry.2.taken?.isSome
  refused ++ taken.flatMap (fun entry => entry.2.taken?.getD []) ++ own

mutual

/-- A node whose maps have all entries that they take over. -/
def merge : Node → Node
  | .list items => .list (mergeItems items)
  | .map entries => .map (mergeTaken (mergeEntries entries))
  | node => node
termination_by structural node => node

def mergeItems : List Node → List Node
  | [] => []
  | item :: rest => merge item :: mergeItems rest
termination_by structural items => items

def mergeEntries : List (Node × Node) → List (Node × Node)
  | [] => []
  | (key, value) :: rest => (key, merge value) :: mergeEntries rest
termination_by structural entries => entries

end

/-! ### Scalars -/

def keyValue (text : String) : Except ScalarFault Datum :=
  if text = "=" then .ok (.text text) else plainValue text

def faultOf (value : Except ScalarFault Datum) : List Fault :=
  match value with
  | .ok _ => []
  | .error fault => [.scalar fault]

def keyFaults : Node → List Fault
  | .plain body => faultOf (keyValue body)
  | .quoted _ => []
  | .list _ | .map _ => [.key]

/-- The key that a node is, if it is a scalar with a value. -/
def key : Node → Datum
  | .plain body => (keyValue body).toOption.getD .null
  | .quoted value => value
  | .list _ | .map _ => .null

/-! ### Faults -/

/-- Puts the faults of each level behind those that are already there. -/
def joinLevels : List (List Fault) → List (List Fault) → List (List Fault)
  | [], levels => levels
  | levels, [] => levels
  | level :: rest, more :: others => (level ++ more) :: joinLevels rest others

mutual

/-- The faults of the scalars in a node, by the level at which they stand in it. -/
def faults : Node → List (List Fault)
  | .plain body => [faultOf (plainValue body)]
  | .quoted _ => []
  | .list items => [] :: itemFaults items
  | .map entries => [] :: entryFaults entries
termination_by structural node => node

def itemFaults : List Node → List (List Fault)
  | [] => []
  | item :: rest => joinLevels (faults item) (itemFaults rest)
termination_by structural items => items

def entryFaults : List (Node × Node) → List (List Fault)
  | [] => []
  | (key, value) :: rest =>
    joinLevels [keyFaults key] (joinLevels (faults value) (entryFaults rest))
termination_by structural entries => entries

end

/-! ### Data -/

mutual

/-- The data of a node whose scalars all have values. -/
def datum : Node → Datum
  | .plain body => (plainValue body).toOption.getD .null
  | .quoted value => value
  | .list items => .list (itemData items)
  | .map entries => .ofEntries (entryData entries)
termination_by structural node => node

def itemData : List Node → List Datum
  | [] => []
  | item :: rest => datum item :: itemData rest
termination_by structural items => items

def entryData : List (Node × Node) → List (Datum × Datum)
  | [] => []
  | (key, value) :: rest => (key.key, datum value) :: entryData rest
termination_by structural entries => entries

end

/-- The data of a node, or its first fault. -/
def read (node : Node) : Except Fault Datum :=
  let whole := node.merge
  match whole.faults.flatten with
  | [] => .ok whole.datum
  | fault :: _ => .error fault

end Node

end BinarySchema.Datum.Yaml
