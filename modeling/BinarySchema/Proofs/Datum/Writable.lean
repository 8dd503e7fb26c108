import BinarySchema.Datum.Json
import BinarySchema.Datum.Yaml.Library
import BinarySchema.Proofs.Decode.Values
import BinarySchema.Proofs.Result.Leaves
import BinarySchema.Result.Tree

/-!
# Decoded data that can be written

The plain form of a decoded tree has the forms that JSON needs and that a library for YAML is asked to write,
since what is decoded is made of the values of primitives and enums. So only the numerals can be missing: of
an integer that is decoded, or, in a verbose form, of the offset or the size of a result.
-/

namespace BinarySchema

/-- That the integers of a result have numerals: its value if it is one, its offset and its size. -/
structure Entry.Writable (field : Result) : Prop where
  value : field.value.hasNumerals = true
  offset : Number.hasNumeral field.offset = true
  size : Number.hasNumeral field.size = true

namespace Datum

/-- Whether a value has no parts and is of a kind that plain data have. -/
def isWritten : Datum → Bool
  | .null | .bool _ | .int _ | .double _ | .text _ => true
  | _ => false

theorem isWritten_plain {value : Datum} (h : value.isSimple = true) (verbose : Bool) :
    (value.plain verbose).isWritten = true := by
  cases value <;> first | rfl | cases h

theorem hasNumerals_plain {value : Datum} (h : value.isSimple = true) (verbose : Bool) :
    (value.plain verbose).hasNumerals = value.hasNumerals := by
  cases value <;> first | rfl | cases h

/-! ### Forms -/

variable {few many : Datum → Bool}

theorem leafFault?_mono (hmore : ∀ value, few value = true → many value = true) {value : Datum}
    (h : leafFault? few value = none) : leafFault? many value = none := by
  unfold leafFault? at h ⊢
  split at h
  · cases h
  · split at h
    · rename_i hnumerals hform
      rw [if_neg hnumerals, if_pos (hmore value hform)]
    · cases h

theorem formFault?_mono_leaf (hmore : ∀ value, few value = true → many value = true) {value : Datum}
    (hlist : ∀ items, value ≠ .list items) (hmap : ∀ entries, value ≠ .map entries)
    (h : formFault? few value = none) : formFault? many value = none := by
  cases value with
  | list items => exact absurd rfl (hlist items)
  | map entries => exact absurd rfl (hmap entries)
  | _ => exact leafFault?_mono hmore h

mutual

theorem formFault?_mono (hmore : ∀ value, few value = true → many value = true) :
    ∀ value : Datum, formFault? few value = none → formFault? many value = none
  | .list items => itemsFormFault?_mono hmore items
  | .map entries => entriesFormFault?_mono hmore entries
  | .null | .bool _ | .int _ | .double _ | .text _ | .codes _ | .bytes _ | .address _ | .date _ | .time _
  | .scope _ => formFault?_mono_leaf hmore nofun nofun
termination_by structural value => value

theorem itemsFormFault?_mono (hmore : ∀ value, few value = true → many value = true) :
    ∀ items, itemsFormFault? few items = none → itemsFormFault? many items = none
  | [], _ => rfl
  | item :: rest, h => by
    obtain ⟨hitem, hrest⟩ := Option.or_eq_none_iff.1 h
    exact Option.or_eq_none_iff.2 ⟨formFault?_mono hmore item hitem,
      itemsFormFault?_mono hmore rest hrest⟩
termination_by structural items => items

theorem entriesFormFault?_mono (hmore : ∀ value, few value = true → many value = true) :
    ∀ entries, entriesFormFault? few entries = none → entriesFormFault? many entries = none
  | [], _ => rfl
  | (key, value) :: rest, h => by
    obtain ⟨hentry, hrest⟩ := Option.or_eq_none_iff.1 h
    obtain ⟨hkey, hvalue⟩ := Option.or_eq_none_iff.1 hentry
    have hentry := Option.or_eq_none_iff.2 ⟨leafFault?_mono hmore hkey,
      formFault?_mono hmore value hvalue⟩
    exact Option.or_eq_none_iff.2 ⟨hentry, entriesFormFault?_mono hmore rest hrest⟩
termination_by structural entries => entries

end

theorem leafFault?_written {value : Datum} (h : value.isWritten = true)
    (hnumerals : value.hasNumerals = true) : leafFault? isWritten value = none := by
  unfold leafFault?
  rw [hnumerals, h]
  rfl

theorem formFault?_written {value : Datum} (h : value.isWritten = true)
    (hnumerals : value.hasNumerals = true) : formFault? isWritten value = none := by
  cases value <;> first | exact leafFault?_written h hnumerals | cases h

theorem entriesFormFault?_text {name : String} {value : Datum} {rest : List (Datum × Datum)}
    (hvalue : formFault? isWritten value = none) (hrest : entriesFormFault? isWritten rest = none) :
    entriesFormFault? isWritten ((.text name, value) :: rest) = none := by
  rw [entriesFormFault?, leafFault?_written rfl rfl, hvalue, hrest]
  rfl

theorem formFault?_detail {field : Result} (h : field.Writable) {value : Datum}
    (hvalue : formFault? isWritten value = none) : formFault? isWritten (field.detail value) = none := by
  have htext (text : String) : formFault? isWritten (.text text) = none :=
    formFault?_written rfl rfl
  have hshown {rest : List (Datum × Datum)} (hrest : entriesFormFault? isWritten rest = none) :
      entriesFormFault? isWritten ((.text "type", .text field.typeName) ::
        (.text "offset", .int field.offset) :: (.text "size", .int field.size) ::
        (.text "value", value) :: rest) = none := by
    refine entriesFormFault?_text (htext _) (entriesFormFault?_text ?_ ?_)
    · exact formFault?_written rfl h.offset
    · refine entriesFormFault?_text ?_ (entriesFormFault?_text hvalue hrest)
      exact formFault?_written rfl h.size
  unfold Entry.detail
  cases visibleComment field.comment with
  | none => exact hshown rfl
  | some comment => exact hshown (entriesFormFault?_text (htext comment) rfl)

theorem entriesFormFault?_plain {fields : Scope} (verbose : Bool)
    (hfields : ∀ field ∈ fields, field.Writable)
    (hvalues : ∀ field ∈ fields, formFault? isWritten (field.value.plain verbose) = none) :
    entriesFormFault? isWritten (plainEntries verbose fields) = none := by
  induction fields with
  | nil => rfl
  | cons field rest ih =>
    obtain ⟨hfield, hothers⟩ := List.forall_mem_cons.1 hfields
    obtain ⟨hvalue, hrest⟩ := List.forall_mem_cons.1 hvalues
    rw [plainEntries_cons]
    refine entriesFormFault?_text ?_ (ih hothers hrest)
    cases verbose with
    | false => exact hvalue
    | true => exact formFault?_detail hfield hvalue

theorem formFault?_plain {value : Datum} (h : value.Produced) (verbose : Bool)
    (hvalue : value.hasNumerals = true) (hinner : ∀ field ∈ value.inner, field.Writable) :
    formFault? isWritten (value.plain verbose) = none := by
  induction h with
  | simple hsimple =>
    refine formFault?_written (isWritten_plain hsimple verbose) ?_
    rw [hasNumerals_plain hsimple, hvalue]
  | scope _ _ ih =>
    have hfields := Scope.forall_everywhere_iff.1 hinner
    refine entriesFormFault?_plain verbose (fun field hfield => (hfields field hfield).1) ?_
    intro field hfield
    exact ih field hfield (hfields field hfield).1.value (hfields field hfield).2

/-! ### Verbose forms -/

/-- The verbose form of a value has numerals for its integers and for the places of the results in it. -/
theorem hasNumerals_verbose_iff {value : Datum} (h : value.Produced) :
    (value.plain true).hasNumerals = true
      ↔ value.hasNumerals = true ∧ ∀ field ∈ value.inner, field.Writable := by
  induction h with
  | @simple value hsimple =>
    have hinner : value.inner = [] := by cases value <;> first | rfl | cases hsimple
    rw [hasNumerals_plain hsimple, hinner]
    simp
  | @scope fields _ _ ih =>
    have hdetail (field : Result) (hfield : field ∈ fields) :
        (field.detail (field.value.plain true)).hasNumerals = true
          ↔ field.Writable ∧ ∀ inside ∈ field.value.inner, inside.Writable := by
      have hshown : (field.detail (field.value.plain true)).hasNumerals = true
          ↔ Number.hasNumeral field.offset = true ∧ Number.hasNumeral field.size = true ∧
            (field.value.plain true).hasNumerals = true := by
        unfold Entry.detail
        cases visibleComment field.comment <;>
          simp [hasNumerals, entriesHaveNumerals]
      rw [hshown, ih field hfield]
      constructor
      · rintro ⟨hoffset, hsize, hvalue, hinner⟩
        exact ⟨⟨hvalue, hoffset, hsize⟩, hinner⟩
      · rintro ⟨hfield, hinner⟩
        exact ⟨hfield.offset, hfield.size, hfield.value, hinner⟩
    have hfields : entriesHaveNumerals (plainEntries true fields) = true
        ↔ ∀ field ∈ Scope.everywhere fields, field.Writable := by
      rw [entriesHaveNumerals_iff, plainEntries_eq_map, List.forall_mem_map,
        Scope.forall_everywhere_iff]
      apply forall₂_congr
      intro field hfield
      rw [← hdetail field hfield]
      exact and_iff_right rfl
    exact hfields.trans (and_iff_right rfl).symm

end Datum

namespace Scope

theorem tree?_eq_some_iff {fields : Scope} (h : (Datum.scope fields).Produced) {depth : Nat}
    {text : String} :
    fields.tree? depth = some text
      ↔ (∀ result ∈ fields.everywhere, result.Writable) ∧ text = fields.tree depth := by
  have hnumerals : (fields.plain true).hasNumerals = true
      ↔ ∀ result ∈ fields.everywhere, result.Writable :=
    (Datum.hasNumerals_verbose_iff h).trans (and_iff_right rfl)
  unfold tree?
  rw [← hnumerals]
  split
  · rename_i hhas
    exact ⟨fun h => ⟨hhas, (Option.some.inj h).symm⟩, fun h => congrArg some h.2.symm⟩
  · rename_i hhas
    exact ⟨nofun, fun h => absurd h.1 hhas⟩

variable {fields : Scope} (hproduced : (Datum.scope fields).Produced)
  (hwritable : ∀ field ∈ fields.everywhere, field.Writable)

include hproduced hwritable

theorem formFault?_plain (verbose : Bool) : (fields.plain verbose).formFault? Datum.isWritten = none :=
  Datum.formFault?_plain hproduced verbose rfl hwritable

theorem json_plain (verbose : Bool) (indent : Option Nat) :
    (fields.plain verbose).json indent = .ok (Datum.Json.write indent 0 (fields.plain verbose)) := by
  have hforms (value : Datum) (hwritten : value.isWritten = true) : Datum.Json.hasForm value = true := by
    cases value <;> first | rfl | cases hwritten
  unfold Datum.json
  rw [Datum.formFault?_mono hforms _ (formFault?_plain hproduced hwritable verbose)]

theorem tree?_eq (depth : Nat) : fields.tree? depth = some (fields.tree depth) :=
  (tree?_eq_some_iff hproduced).2 ⟨hwritable, rfl⟩

end Scope

/-- That a library writes maps and lists of null, booleans, numbers and text, if the integers in them have
numerals. -/
structure YamlLibrary.WritesPlain (yaml : YamlLibrary) : Prop where
  written {datum : Datum} (h : datum.formFault? Datum.isWritten = none) :
    ∃ text, yaml.write datum = .ok text

theorem YamlLibrary.block_writesPlain : block.WritesPlain where
  written {datum} h := by
    have hforms (value : Datum) (hwritten : value.isWritten = true) : Datum.Yaml.hasForm value = true := by
      cases value <;> first | rfl | cases hwritten
    refine ⟨Datum.Yaml.write datum, ?_⟩
    unfold block Datum.yaml
    dsimp only
    rw [Datum.formFault?_mono hforms datum h]

end BinarySchema
