import BinarySchema.Datum
import BinarySchema.Number.Quantity

/-!
# Matching data

Whether data are as they were expected. An expected map asks for its own keys only; an expected list
is matched with a list of the same length, or with the values of a map in their order. Numbers match
within a tolerance, booleans are no numbers, and all else matches what is equal to it. Scopes are
equal when they have equal results under the same names, in any order.

Data that do not match are told apart by the first difference and the way to it.
-/

namespace BinarySchema

/-- The first difference of data from what was expected. -/
inductive Mismatch where
  | missingKey (key : Datum)
  | atKey (key : Datum) (inner : Mismatch)
  | notList (actual : Datum)
  | length (expected actual : Nat)
  | atIndex (index : Nat) (inner : Mismatch)
  | different (expected actual : Datum)
  deriving Repr

namespace Mismatch

def hasNumerals : Mismatch → Bool
  | .missingKey key => key.hasNumerals
  | .atKey key inner => key.hasNumerals && inner.hasNumerals
  | .notList actual => actual.hasNumerals
  | .length .. => true
  | .atIndex _ inner => inner.hasNumerals
  | .different expected actual => expected.hasNumerals && actual.hasNumerals

def message : Mismatch → String
  | .missingKey key => s!"missing key '{key.plainText}'"
  | .atKey key inner => s!"{key.plainText}: {inner.message}"
  | .notList actual => s!"expected a list, got {actual.literal}"
  | .length expected actual => s!"list length mismatch: expected {expected}, got {actual}"
  | .atIndex index inner => s!"[{index}]: {inner.message}"
  | .different expected actual => s!"expected {expected.literal}, got {actual.literal}"

def message? (mismatch : Mismatch) : Option String :=
  if mismatch.hasNumerals then some mismatch.message else none

end Mismatch

namespace Datum

/-- The quantity that a value is. Booleans are none. -/
def quantity? : Datum → Option Number.Quantity
  | .int n => some (.int n)
  | .double x => some (.double x)
  | _ => none

/-- The tolerance between an expected and an actual number: the double nearest to 0.001. -/
def defaultTolerance : Number.Quantity := .double ⟨0x3f50624dd2f1a9fc⟩

/-! ### Equal scopes -/

mutual

/-- Whether two values are equal: lists by their items, maps and scopes by what they have under each
key or name, numbers by their value, and all else by kind and content. -/
def equal : Datum → Datum → Bool
  | .list left, .list right => equalItems left right
  | .map left, .map right => left.length = right.length && equalEntries left right
  | .scope left, .scope right => left.length = right.length && equalResults left right
  | left, right => sameKey left right
termination_by structural left => left

def equalItems : List Datum → List Datum → Bool
  | [], [] => true
  | left :: rest, right :: others => equal left right && equalItems rest others
  | _, _ => false
termination_by structural left => left

def equalEntries : List (Datum × Datum) → List (Datum × Datum) → Bool
  | [], _ => true
  | (key, value) :: rest, right => (lookup? right key).any (equal value ·) && equalEntries rest right
termination_by structural left => left

def equalResults : List (Entry Datum) → List (Entry Datum) → Bool
  | [], _ => true
  | entry :: rest, right => right.any (equalResult entry ·) && equalResults rest right
termination_by structural left => left

def equalResult : Entry Datum → Entry Datum → Bool
  | ⟨kind, name, offset, size, typeName, value, comment, raw⟩, right =>
    kind = right.kind && name = right.name && offset = right.offset && size = right.size &&
      typeName = right.typeName && equal value right.value && comment = right.comment &&
      raw = right.raw
termination_by structural left => left

end

/-- Whether two values that are not both numbers or both maps, and the first of which is no list, are
of one kind and equal. -/
def sameValue : Datum → Datum → Bool
  | .scope left, .scope right => equal (.scope left) (.scope right)
  | left, right => sameContent left right

/-- Compares values of which not both are maps and the expected one is no list. -/
def mismatchSimple (tolerance : Number.Quantity) (expected actual : Datum) :
    Except Number.RangeFault (Option Mismatch) := do
  let same ← match expected.quantity?, actual.quantity? with
    | some m, some n => pure ((← m.distance n).atMost tolerance)
    | _, _ => pure (sameValue expected actual)
  return if same then none else some (.different expected actual)

def listed? : Datum → Option (List Datum)
  | .list items => some items
  | .map entries => some (entries.map Prod.snd)
  | _ => none

mutual

/-- The first difference of data from what is expected, if there is one. -/
def mismatch? (tolerance : Number.Quantity) :
    (expected actual : Datum) → Except Number.RangeFault (Option Mismatch)
  | .map wanted, .map given => mismatchEntries? tolerance wanted given
  | .list wanted, actual =>
    match actual.listed? with
    | none => .ok (some (.notList actual))
    | some given =>
      if wanted.length = given.length then mismatchItems? tolerance 0 wanted given
      else .ok (some (.length wanted.length given.length))
  | expected, actual => mismatchSimple tolerance expected actual
termination_by structural expected => expected

def mismatchEntries? (tolerance : Number.Quantity) :
    (wanted given : List (Datum × Datum)) → Except Number.RangeFault (Option Mismatch)
  | [], _ => .ok none
  | (key, value) :: rest, given =>
    match lookup? given key with
    | none => .ok (some (.missingKey key))
    | some actual => do
      match ← mismatch? tolerance value actual with
      | some inner => return some (.atKey key inner)
      | none => mismatchEntries? tolerance rest given
termination_by structural wanted => wanted

def mismatchItems? (tolerance : Number.Quantity) (index : Nat) :
    (wanted given : List Datum) → Except Number.RangeFault (Option Mismatch)
  | value :: rest, actual :: more => do
    match ← mismatch? tolerance value actual with
    | some inner => return some (.atIndex index inner)
    | none => mismatchItems? tolerance (index + 1) rest more
  | _, _ => .ok none
termination_by structural wanted => wanted

end

end Datum

end BinarySchema
