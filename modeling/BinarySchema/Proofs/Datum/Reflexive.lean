import BinarySchema.Datum.Match
import BinarySchema.Proofs.Decode.Values
import BinarySchema.Proofs.Result.Leaves
import BinarySchema.Result.Plain

/-!
# Decoded data compared with themselves

The plain form of a decoded tree has each name once in a map, so a comparison of it with itself finds
each value where it expects it. An integer has the distance zero from itself, and so has a finite double.
The distance of an infinity from itself is not a number, and no tolerance is above that. So data are as
they were expected, if it is these data that were expected, exactly if all their doubles are finite.
-/

namespace BinarySchema

/-! ### Finite values -/

def Datum.isFinite : Datum → Bool
  | .double x => x.isFinite
  | _ => true

/-- That all doubles of a value are finite. -/
def Datum.AllFinite (value : Datum) : Prop :=
  value.isFinite = true ∧ ∀ field ∈ value.inner, field.value.isFinite = true

/-- That all doubles of a tree are finite. -/
def Scope.AllFinite (fields : Scope) : Prop :=
  ∀ field ∈ fields.everywhere, field.value.isFinite = true

theorem Scope.allFinite_iff {fields : Scope} :
    fields.AllFinite ↔ ∀ field ∈ fields, field.value.AllFinite :=
  forall_everywhere_iff

theorem Datum.allFinite_scope {fields : Scope} :
    (Datum.scope fields).AllFinite ↔ ∀ field ∈ fields, field.value.AllFinite := by
  rw [← Scope.allFinite_iff]
  exact and_iff_right rfl

/-! ### Numbers -/

namespace Number.Double

variable {x : Double}

theorem view_of_finite (h : x.isFinite = true) :
    ∃ negative mantissa exponent, x.view = .finite negative mantissa exponent := by
  have hbits : x.exponentBits ≠ 0x7ff := by simpa [isFinite] using h
  unfold view
  rw [if_neg hbits]
  split
  · exact ⟨_, _, _, rfl⟩
  · exact ⟨_, _, _, rfl⟩

theorem view_of_not_finite (h : x.isFinite = false) :
    x.view = .nan ∨ ∃ negative, x.view = .infinite negative := by
  have hbits : x.exponentBits = 0x7ff := by simpa [isFinite] using h
  unfold view
  rw [if_pos hbits]
  split
  · exact .inr ⟨_, rfl⟩
  · exact .inl rfl

theorem sub_self_of_finite (h : x.isFinite = true) : x.sub x = zero false := by
  obtain ⟨negative, mantissa, exponent, hview⟩ := view_of_finite h
  unfold sub ofScaled
  rw [hview]
  simp [ofFraction]

theorem sub_self_of_not_finite (h : x.isFinite = false) : x.sub x = nan := by
  unfold sub
  rcases view_of_not_finite h with hview | ⟨negative, hview⟩
  · rw [hview]
  · rw [hview]
    exact if_pos rfl

end Number.Double

namespace Datum

/-! ### Outcomes -/

/-- That a comparison tells whether something holds, by a difference that can be written if not. -/
def Tells (holds : Prop) (outcome : Except Number.RangeFault (Option Mismatch)) : Prop :=
  match outcome with
  | .ok none => holds
  | .ok (some difference) => ¬ holds ∧ difference.hasNumerals = true
  | .error _ => False

namespace Tells

variable {holds other : Prop} {outcome between : Except Number.RangeFault (Option Mismatch)}

theorem iff_none (h : Tells holds outcome) : outcome = .ok none ↔ holds := by
  match outcome, h with
  | .ok none, h => exact iff_of_true rfl h
  | .ok (some _), h => exact iff_of_false (by simp) h.1

theorem congr (h : Tells holds outcome) (hiff : holds ↔ other) : Tells other outcome :=
  propext hiff ▸ h

/-- A comparison before others, where a difference is put into its place. -/
theorem before {place : Mismatch → Mismatch} (hbetween : Tells holds between)
    (houtcome : Tells other outcome)
    (hplace : ∀ inner, inner.hasNumerals = true → (place inner).hasNumerals = true) :
    Tells (holds ∧ other) (do
      match ← between with
      | some inner => return some (place inner)
      | none => outcome) := by
  match between, hbetween with
  | .ok none, hbetween => exact houtcome.congr (and_iff_right hbetween).symm
  | .ok (some inner), hbetween =>
    exact ⟨fun hboth => hbetween.1 hboth.1, hplace inner hbetween.2⟩

end Tells

/-! ### Values -/

theorem lookup?_plainEntries {fields : Scope} {field : Result} (hdistinct : fields.names.Nodup)
    (hfield : field ∈ fields) :
    lookup? (plainEntries false fields) (.text field.name) = some (field.value.plain false) := by
  induction fields with
  | nil => cases hfield
  | cons first rest ih =>
    obtain ⟨hfirst, hrest⟩ := List.nodup_cons.1 hdistinct
    rw [plainEntries_cons]
    rcases List.mem_cons.1 hfield with rfl | hfield
    · simp [lookup?, sameKey_text_iff.2]
    · have hother : sameKey (.text field.name) (.text first.name) = false := by
        rw [Bool.eq_false_iff]
        intro hsame
        have hname : first.name = field.name := by simpa using sameKey_text_iff.1 hsame
        exact hfirst (hname ▸ List.mem_map_of_mem hfield)
      rw [← ih hrest hfield]
      simp [lookup?, hother]

theorem mismatchSimple_same {value : Datum} (hquantity : value.quantity? = none)
    (hsame : sameValue value value = true) :
    mismatchSimple defaultTolerance value value = .ok none := by
  unfold mismatchSimple
  rw [hquantity, hsame]
  rfl

theorem mismatch?_text_self (s : String) :
    mismatch? defaultTolerance (.text s) (.text s) = .ok none := by
  have hsame : sameValue (.text s) (.text s) = true := by simp [sameValue, sameContent]
  exact mismatchSimple_same rfl hsame

theorem mismatchSimple_number {value : Datum} {number distance : Number.Quantity}
    (hnumber : value.quantity? = some number) (hdistance : number.distance number = .ok distance) :
    mismatchSimple defaultTolerance value value
      = .ok (if distance.atMost defaultTolerance then none else some (.different value value)) := by
  unfold mismatchSimple
  rw [hnumber]
  dsimp only
  rw [hdistance]
  rfl

theorem mismatchSimple_int (n : Int) :
    mismatchSimple defaultTolerance (.int n) (.int n) = .ok none := by
  have hdistance : Number.Quantity.distance (.int n) (.int n) = .ok (.int 0) := by
    simp [Number.Quantity.distance]
  have hzero : (Number.Quantity.int 0).atMost defaultTolerance = true := by decide +kernel
  rw [mismatchSimple_number rfl hdistance, hzero]
  rfl

theorem mismatchSimple_double (x : Number.Double) :
    mismatchSimple defaultTolerance (.double x) (.double x)
      = .ok (if x.isFinite then none else some (.different (.double x) (.double x))) := by
  have hdistance : Number.Quantity.distance (.double x) (.double x) = .ok (.double (x.sub x).abs) := rfl
  rw [mismatchSimple_number rfl hdistance]
  cases hfinite : x.isFinite with
  | true =>
    have hzero : (Number.Quantity.double (Number.Double.zero false).abs).atMost defaultTolerance = true := by
      decide +kernel
    rw [Number.Double.sub_self_of_finite hfinite, hzero]
  | false =>
    have hnan : (Number.Quantity.double Number.Double.nan.abs).atMost defaultTolerance = false := by
      decide +kernel
    rw [Number.Double.sub_self_of_not_finite hfinite, hnan]

/-- A value without parts is compared with itself. -/
theorem mismatch?_self_of_simple {value : Datum} (hsimple : value.isSimple = true) :
    Tells value.AllFinite
      (mismatch? defaultTolerance (value.plain false) (value.plain false)) := by
  have hsame {outcome : Except Number.RangeFault (Option Mismatch)} (houtcome : outcome = .ok none)
      (hvalue : value.isFinite = true) (hinner : value.inner = []) :
      Tells value.AllFinite outcome := by
    rw [houtcome]
    refine ⟨hvalue, ?_⟩
    rw [hinner]
    exact nofun
  cases value with
  | double x =>
    have hiff : (Datum.double x).AllFinite ↔ x.isFinite = true := by
      simp [AllFinite, isFinite, inner]
    show Tells _ (mismatchSimple defaultTolerance (.double x) (.double x))
    rw [mismatchSimple_double]
    cases hx : x.isFinite with
    | true => exact hiff.2 hx
    | false => exact ⟨by simp [hiff, hx], rfl⟩
  | int n => exact hsame (mismatchSimple_int n) rfl rfl
  | null => exact hsame rfl rfl rfl
  | bool b =>
    have hequal : sameValue (.bool b) (.bool b) = true := by simp [sameValue, sameContent]
    exact hsame (mismatchSimple_same rfl hequal) rfl rfl
  | text s => exact hsame (mismatch?_text_self s) rfl rfl
  | address n => exact hsame (mismatch?_text_self (Text.address n)) rfl rfl
  | time t =>
    rw [plain]
    generalize t.text 'T' = s
    exact hsame (mismatch?_text_self s) rfl rfl
  | _ => cases hsimple

section

variable {tolerance : Number.Quantity} {key value actual : Datum} {rest given : List (Datum × Datum)}

theorem mismatchEntries?_of_same (hlookup : lookup? given key = some actual)
    (hsame : mismatch? tolerance value actual = .ok none) :
    mismatchEntries? tolerance ((key, value) :: rest) given = mismatchEntries? tolerance rest given := by
  rw [mismatchEntries?, hlookup]
  dsimp only
  rw [hsame]
  rfl

theorem mismatchEntries?_of_different {inner : Mismatch} (hlookup : lookup? given key = some actual)
    (hdifferent : mismatch? tolerance value actual = .ok (some inner)) :
    mismatchEntries? tolerance ((key, value) :: rest) given = .ok (some (.atKey key inner)) := by
  rw [mismatchEntries?, hlookup]
  dsimp only
  rw [hdifferent]
  rfl

end

theorem mismatchEntries?_self {fields all : Scope} (hdistinct : all.names.Nodup)
    (hfields : ∀ field ∈ fields, field ∈ all)
    (hself : ∀ field ∈ fields, Tells field.value.AllFinite
      (mismatch? defaultTolerance (field.value.plain false) (field.value.plain false))) :
    Tells (∀ field ∈ fields, field.value.AllFinite)
      (mismatchEntries? defaultTolerance (plainEntries false fields) (plainEntries false all)) := by
  induction fields with
  | nil => exact nofun
  | cons field rest ih =>
    have hfield := lookup?_plainEntries hdistinct (hfields _ List.mem_cons_self)
    have hrest := ih (fun other hother => hfields _ (List.mem_cons_of_mem _ hother))
      fun other hother => hself _ (List.mem_cons_of_mem _ hother)
    rw [plainEntries_cons]
    unfold mismatchEntries?
    rw [hfield]
    rw [List.forall_mem_cons]
    refine (hself _ List.mem_cons_self).before hrest ?_
    exact fun inner hinner => Bool.and_eq_true_iff.2 ⟨rfl, hinner⟩

/-- Values that decoding produces have no difference from themselves exactly if their doubles are
finite. -/
theorem mismatch?_self {value : Datum} (h : value.Produced) :
    Tells value.AllFinite
      (mismatch? defaultTolerance (value.plain false) (value.plain false)) := by
  induction h with
  | simple hsimple => exact mismatch?_self_of_simple hsimple
  | scope hdistinct _ ih =>
    exact (mismatchEntries?_self hdistinct (fun _ hfield => hfield) ih).congr allFinite_scope.symm

end Datum

end BinarySchema
