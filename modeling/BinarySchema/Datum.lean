import BinarySchema.Calendar
import BinarySchema.Entry
import BinarySchema.Number.Integer
import BinarySchema.Number.Shortest
import BinarySchema.Text.Address
import BinarySchema.Text.Quoted

/-!
# Data

Values: of decoded fields, and of what vector and option files hold. A scope holds named entries, as
decoding produces them; a map has entries under keys that are data too, and both keep their order.
Text may ask for single surrogates, which are code points but no characters; such text is kept as its
codes.

The literal form shows a value in messages. It and every other written form need the decimal
numerals of the integers inside, which the limit on numerals can deny.
-/

namespace BinarySchema

inductive Datum where
  | null
  | bool (value : Bool)
  | int (value : Int)
  | double (value : Number.Double)
  | text (value : String)
  | codes (points : List Nat)
  | bytes (value : List UInt8)
  | address (value : Nat)
  | date (value : Date)
  | time (value : DateTime)
  | list (items : List Datum)
  | map (entries : List (Datum × Datum))
  | scope (entries : List (Entry Datum))
  deriving Repr, Inhabited

namespace Datum

/-- The text of code points. -/
def ofCodes (points : List Nat) : Datum :=
  if points.all fun point => point.isValidChar then .text (String.ofList (Text.ofCodes points))
  else .codes points

mutual

/-- Whether all integers inside have decimal numerals. -/
def hasNumerals : Datum → Bool
  | .int n => Number.hasNumeral n
  | .list items => itemsHaveNumerals items
  | .map entries => entriesHaveNumerals entries
  | _ => true
termination_by structural d => d

def itemsHaveNumerals : List Datum → Bool
  | [] => true
  | item :: rest => item.hasNumerals && itemsHaveNumerals rest
termination_by structural items => items

def entriesHaveNumerals : List (Datum × Datum) → Bool
  | [] => true
  | (key, value) :: rest => key.hasNumerals && value.hasNumerals && entriesHaveNumerals rest
termination_by structural entries => entries

end

theorem itemsHaveNumerals_iff {items : List Datum} :
    itemsHaveNumerals items = true ↔ ∀ item ∈ items, item.hasNumerals = true := by
  induction items with
  | nil => simp [itemsHaveNumerals]
  | cons item rest ih => simp [itemsHaveNumerals, ih]

theorem entriesHaveNumerals_iff {entries : List (Datum × Datum)} :
    entriesHaveNumerals entries = true
      ↔ ∀ entry ∈ entries, entry.1.hasNumerals = true ∧ entry.2.hasNumerals = true := by
  induction entries with
  | nil => simp [entriesHaveNumerals]
  | cons entry rest ih =>
    rw [List.forall_mem_cons, ← ih]
    simp [entriesHaveNumerals]

/-- One byte as it stands between two quotes of the given kind. -/
def quoteByte (quote : Char) (byte : UInt8) : List Char :=
  if byte < 0x80 then Text.quoteChar quote (Char.ofUInt8 byte)
  else '\\' :: 'x' :: Text.hexDigits 2 byte.toNat

/-- Bytes behind a `b`, the printable ones as characters. -/
def quotedBytes (bytes : List UInt8) : String :=
  let quote := Text.enclosingQuote (bytes.map Char.ofUInt8)
  String.ofList ('b' :: quote :: bytes.flatMap (quoteByte quote) ++ [quote])

def scopeLiteral {α : Type} (entries : List (Entry α)) : String :=
  let names := ", ".intercalate (entries.map fun entry => Text.quoted entry.name)
  s!"ResultScope([{names}])"

mutual

def literal : Datum → String
  | .null => "None"
  | .bool b => if b then "True" else "False"
  | .int n => Number.decimal n
  | .double x => x.text
  | .text s => Text.quoted s
  | .codes points => Text.quotedCodes points
  | .bytes content => quotedBytes content
  | .address n => "IPv4Address('" ++ Text.address n ++ "')"
  | .date d => d.literal
  | .time t => t.literal
  | .list items => "[" ++ ", ".intercalate (literals items) ++ "]"
  | .map entries => "\x7b" ++ ", ".intercalate (entryLiterals entries) ++ "\x7d"
  | .scope entries => scopeLiteral entries
termination_by structural d => d

def literals : List Datum → List String
  | [] => []
  | item :: rest => item.literal :: literals rest
termination_by structural items => items

def entryLiterals : List (Datum × Datum) → List String
  | [] => []
  | (key, value) :: rest => (key.literal ++ ": " ++ value.literal) :: entryLiterals rest
termination_by structural entries => entries

end

/-- The literal form, if all integers inside have numerals. -/
def literal? (datum : Datum) : Option String :=
  if datum.hasNumerals then some datum.literal else none

/-- The text of a value inside a message: text as it is, dates, times and addresses in their usual
form, and all else in literal form. -/
def plainText : Datum → String
  | .text s => s
  | .codes points => String.ofList (Text.joinSurrogates points)
  | .address n => Text.address n
  | .date d => d.text
  | .time t => t.text ' '
  | datum => datum.literal

/-- Whether a value counts as none at all: null, false, zero, or without content. -/
def isEmpty : Datum → Bool
  | .null => true
  | .bool b => !b
  | .int n => n = 0
  | .double x => x.compareInt? 0 = some .eq
  | .text s => s.isEmpty
  | .codes points => points.isEmpty
  | .bytes content => content.isEmpty
  | .address _ | .date _ | .time _ => false
  | .list items => items.isEmpty
  | .map entries => entries.isEmpty
  | .scope entries => entries.isEmpty

/-- Whether two values without parts, and that are no numbers, are of one kind and equal. -/
def sameContent : Datum → Datum → Bool
  | .null, .null => true
  | .bool a, .bool b => a = b
  | .text s, .text t => s = t
  | .codes a, .codes b => a = b
  | .bytes b, .bytes c => b = c
  | .address m, .address n => m = n
  | .date a, .date b => a = b
  | .time a, .time b => a.same b
  | _, _ => false

/-! ### Keys -/

def keyNumber? : Datum → Option (Int ⊕ Number.Double)
  | .bool b => some (.inl (if b then 1 else 0))
  | .int n => some (.inl n)
  | .double x => some (.inr x)
  | _ => none

def integer? (datum : Datum) : Option Int :=
  match datum.keyNumber? with
  | some (.inl n) => some n
  | some (.inr x) => x.round?.filter fun n => x.compareInt? n = some .eq
  | none => none

/-- Whether two keys are the same: numbers by their value, whatever their type, and all else by
kind and content. -/
def sameKey (left right : Datum) : Bool :=
  match left.keyNumber?, right.keyNumber? with
  | some (.inl m), some (.inl n) => m = n
  | some (.inr x), some (.inl n) => x.compareInt? n = some .eq
  | some (.inl m), some (.inr y) => y.compareInt? m = some .eq
  | some (.inr x), some (.inr y) => x.compare? y = some .eq
  | some _, none | none, some _ => false
  | none, none => sameContent left right

/-- The value of a key in the entries of a map. -/
def lookup? (entries : List (Datum × Datum)) (key : Datum) : Option Datum :=
  (entries.find? (sameKey key ·.1)).map Prod.snd

theorem sameKey_text_iff {name : String} {key : Datum} :
    sameKey (.text name) key = true ↔ key = .text name := by
  cases key <;> simp [sameKey, keyNumber?, sameContent, eq_comm]

def setKey (key value : Datum) : List (Datum × Datum) → List (Datum × Datum)
  | [] => [(key, value)]
  | (k, v) :: rest => if sameKey key k then (k, value) :: rest else (k, v) :: setKey key value rest

theorem lookup?_setKey_text (name : String) (value : Datum) (entries : List (Datum × Datum)) :
    lookup? (setKey (.text name) value entries) (.text name) = some value := by
  induction entries with
  | nil => simp [setKey, lookup?, sameKey_text_iff.2 rfl]
  | cons entry rest ih =>
    unfold setKey
    split
    · rename_i h
      simp [lookup?, h]
    · rename_i h
      simp only [lookup?, List.find?_cons, h] at ih ⊢
      exact ih

def ofEntries (entries : List (Datum × Datum)) : Datum :=
  .map (entries.foldl (fun all entry => setKey entry.1 entry.2 all) [])

/-- The value of a text key of a map. -/
def get? (datum : Datum) (key : String) : Option Datum :=
  match datum with
  | .map entries => lookup? entries (.text key)
  | _ => none

end Datum

end BinarySchema
