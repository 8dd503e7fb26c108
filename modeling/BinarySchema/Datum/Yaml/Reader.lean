import BinarySchema.Datum.Yaml.Node

/-!
# Reading YAML

A document is put together on a stack of the lists and maps that are still open. A list or map in
block style has the column of its items and ends where an item stands further to the left; one in
brackets ends at its bracket. A node goes into the innermost open list or map, and what a map or list
lacks when it ends is left empty. A key in a list in brackets begins a map of its own with one entry.
Of keys that are the same, the first keeps its place and the last its value.

This covers JSON text and the block and flow forms of option and vector files. Anchors, tags and
scalars of several lines are refused.
-/

namespace BinarySchema.Datum.Yaml

/-- A mark whose keys are known. -/
inductive Item where
  | key (key : Node)
  | value (value : Node)
  | dash
  | comma
  | openList
  | closeList
  | openMap
  | closeMap
  deriving Repr

def Mark.item : Mark → Except Fault Item
  | .plain body => .ok (.value (.plain body))
  | .quoted value => .ok (.value (.quoted value))
  | .dash => .ok .dash
  | .comma => .ok .comma
  | .openList => .ok .openList
  | .closeList => .ok .closeList
  | .openMap => .ok .openMap
  | .closeMap => .ok .closeMap
  | .colon => .error .layout
  | .documentStart | .documentEnd => .error .documents

/-- The items of marks, each with its column. A scalar in front of a colon is a key. -/
def items : List (Nat × Mark) → Except Fault (List (Nat × Item))
  | [] => .ok []
  | (column, .plain body) :: (_, .colon) :: rest => do
    return (column, .key (.plain body)) :: (← items rest)
  | (column, .quoted value) :: (_, .colon) :: rest => do
    return (column, .key (.quoted value)) :: (← items rest)
  | (column, mark) :: rest => do
    let item ← mark.item
    return (column, item) :: (← items rest)

/-- A list or map that is still open, or the whole document. Those in brackets have no column. Items
and entries stand in reverse. A pair is a map with one entry in a list in brackets. -/
inductive Frame where
  | document (value : Option Node)
  | list (column : Option Nat) (items : List Node) (waiting : Bool)
  | map (column : Option Nat) (entries : List (Node × Node)) (waiting : Option Node)
  | pair (key : Node) (value : Option Node)
  deriving Repr

namespace Frame

def isFlow : Frame → Bool
  | .list none .. | .map none .. | .pair .. => true
  | _ => false

def put (value : Node) : Frame → Option Frame
  | .document none => some (.document (some value))
  | .document (some _) => none
  | .list column items _ => some (.list column (value :: items) false)
  | .map column entries (some key) => some (.map column ((key, value) :: entries) none)
  | .map none entries none => some (.map none ((value, .empty) :: entries) none)
  | .map (some _) _ none => none
  | .pair key none => some (.pair key (some value))
  | .pair _ (some _) => none

/-- Gives a frame that waits for a value an empty one. -/
def fill (frame : Frame) : Frame :=
  match frame with
  | .list column items true => .list column (.empty :: items) false
  | .map column entries (some key) => .map column ((key, .empty) :: entries) none
  | _ => frame

def value (frame : Frame) : Node :=
  match frame.fill with
  | .document value => value.getD .empty
  | .list _ items _ => .list items.reverse
  | .map _ entries _ => .map entries.reverse
  | .pair key value => .map [(key, value.getD .empty)]

/-- Whether an item in a column ends a frame. A list may stand below its key in the same column. -/
def endsAt (column : Nat) (item : Item) (frame : Frame) : Bool :=
  match frame, item with
  | .list (some own) .., .dash => column < own
  | .list (some own) .., _ => column ≤ own
  | .map (some own) .., _ => column < own
  | .pair .., .comma | .pair .., .closeList => true
  | _, _ => false

end Frame

/-- The innermost frame first. -/
abbrev Frames := List Frame

namespace Frames

def close : Frames → Option Frames
  | frame :: around :: rest => (around.put frame.value).map (· :: rest)
  | _ => none

theorem length_close {frames closed : Frames} (h : frames.close = some closed) :
    closed.length < frames.length := by
  match frames, h with
  | frame :: around :: rest, h =>
    obtain ⟨put, _, rfl⟩ := Option.map_eq_some_iff.1 h
    simp

/-- Closes frames as long as the innermost one ends. -/
def closeWhile (ends : Frame → Bool) (frames : Frames) : Option Frames :=
  match frames.head?.any ends, _closed : frames.close with
  | false, _ => some frames
  | true, none => none
  | true, some rest => closeWhile ends rest
termination_by frames.length
decreasing_by exact length_close _closed

def put (value : Node) : Frames → Option Frames
  | frame :: rest => (frame.put value).map (· :: rest)
  | [] => none

/-- Takes an item in a column. -/
def step (frames : Frames) (column : Nat) (item : Item) : Option Frames := do
  let frames : Frames ← frames.closeWhile (·.endsAt column item)
  match item, frames with
  | .value value, _ => frames.put value
  | .key key, .map none entries none :: rest => some (.map none entries (some key) :: rest)
  | .key key, .list none .. :: _ => some (.pair key none :: frames)
  | .key key, frame :: rest =>
    if frame.isFlow then none
    else match frame, frame.fill with
      | .map (some own) .., .map _ entries _ =>
        if column = own then some (.map (some own) entries (some key) :: rest)
        else some (.map (some column) [] (some key) :: frame :: rest)
      | _, _ => some (.map (some column) [] (some key) :: frame :: rest)
  | .dash, frame :: rest =>
    match frame, frame.fill with
    | .list (some own) .., .list _ items _ =>
      if column = own then some (.list (some own) items true :: rest)
      else some (.list (some column) [] true :: frame :: rest)
    | _, _ => some (.list (some column) [] true :: frame :: rest)
  | .openList, _ => some (.list none [] false :: frames)
  | .openMap, _ => some (.map none [] none :: frames)
  | .comma, frame :: rest => if frame.isFlow then some (frame.fill :: rest) else none
  | .closeList, .list none .. :: _ => frames.close
  | .closeMap, .map none .. :: _ => frames.close
  | _, _ => none

/-- The value of a document whose items are all taken. -/
def finish (frames : Frames) : Option Node := do
  match ← frames.closeWhile fun frame => match frame with
    | .document _ => false
    | _ => !frame.isFlow with
  | [.document value] => some (value.getD .empty)
  | _ => none

def run : List (Nat × Item) → Frames → Option Node
  | [], frames => frames.finish
  | (column, item) :: rest, frames => do run rest (← frames.step column item)

end Frames

def documentMarks (marks : List (Nat × Mark)) : Except Fault (List (Nat × Mark)) :=
  let body := match marks with
    | (_, .documentStart) :: rest => rest
    | marks => marks
  let isEnd (mark : Nat × Mark) : Bool := match mark.2 with
    | .documentEnd => true
    | _ => false
  if (body.dropWhile (!isEnd ·)).all isEnd then .ok (body.takeWhile (!isEnd ·))
  else .error .documents

end Yaml

/-- Reads the data of a YAML text. -/
def ofYaml (text : String) : Except Yaml.Fault Datum := do
  let items ← Yaml.items (← Yaml.documentMarks (← Yaml.marksOf text))
  match Yaml.Frames.run items [.document none] with
  | some node => node.read
  | none => throw .layout

end BinarySchema.Datum
