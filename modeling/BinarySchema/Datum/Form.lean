import BinarySchema.Datum

/-!
# Forms of data

A written format has forms for some values and not for others. Data can be written when everything
inside has a form, and a numeral where it needs one; else the first value that has none, in the order
of writing, says why not.
-/

namespace BinarySchema.Datum

/-- Why data cannot be written. -/
inductive FormFault where
  | numeralTooLong
  | noForm
  deriving DecidableEq, Repr

/-- The fault of a value or key without parts. -/
def leafFault? (hasForm : Datum → Bool) (datum : Datum) : Option FormFault :=
  if !datum.hasNumerals then some .numeralTooLong
  else if hasForm datum then none else some .noForm

mutual

/-- The first fault of data in a format that has forms for lists, for maps and for the values and
keys without parts that `hasForm` tells. -/
def formFault? (hasForm : Datum → Bool) : Datum → Option FormFault
  | .list items => itemsFormFault? hasForm items
  | .map entries => entriesFormFault? hasForm entries
  | datum => leafFault? hasForm datum
termination_by structural d => d

def itemsFormFault? (hasForm : Datum → Bool) : List Datum → Option FormFault
  | [] => none
  | item :: rest => (formFault? hasForm item).or (itemsFormFault? hasForm rest)
termination_by structural items => items

def entriesFormFault? (hasForm : Datum → Bool) : List (Datum × Datum) → Option FormFault
  | [] => none
  | (key, value) :: rest =>
    ((leafFault? hasForm key).or (formFault? hasForm value)).or (entriesFormFault? hasForm rest)
termination_by structural entries => entries

end

end BinarySchema.Datum
