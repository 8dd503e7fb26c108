import BinarySchema.Proofs.Datum.Reflexive
import BinarySchema.Proofs.TestVector.Outcome

/-!
# Recorded vectors

A vector is recorded if it expects what its payload is decoded to. A run of such a vector always has an
outcome: each expected field is there, and a difference can be written since only doubles can differ from
themselves. The outcome is passed exactly if all doubles are finite. An infinity is told apart from
itself, although it is no less a number.
-/

namespace BinarySchema

namespace TestVector

variable {codecs : Text.Codecs} {schema : Schema} {options : Options} {bytes : List UInt8} {fields : Scope}
  {decoded expected : List (Datum × Datum)}

theorem exists_compare (h : ∀ field ∈ expected, ∃ finding?,
      compareField decoded field.1 field.2 = .ok finding? ∧
        ∀ finding ∈ finding?, finding.hasNumerals = true) :
    ∃ findings, compare decoded expected = .ok findings := by
  induction expected with
  | nil => exact ⟨[], rfl⟩
  | cons field rest ih =>
    obtain ⟨finding?, hfield, hnumerals⟩ := h _ List.mem_cons_self
    obtain ⟨findings, hrest⟩ := ih fun other hother => h _ (List.mem_cons_of_mem _ hother)
    unfold compare
    rw [hfield]
    cases finding? with
    | none => exact ⟨findings, hrest⟩
    | some finding =>
      have hreport : report finding = .ok finding := if_pos (hnumerals _ rfl)
      refine ⟨finding :: findings, ?_⟩
      show (do return (← report finding) :: (← compare decoded rest)) = _
      rw [hreport, hrest]
      rfl

section

variable (hproduced : (Datum.scope fields).Produced) {field : Result} (hfield : field ∈ fields)

include hproduced hfield

theorem field_self :
    Datum.lookup? (Datum.plainEntries false fields) (.text field.name)
      = some (field.value.plain false) ∧
    Datum.Tells field.value.AllFinite
      (Datum.mismatch? Datum.defaultTolerance (field.value.plain false) (field.value.plain false)) := by
  cases hproduced with
  | simple hsimple => cases hsimple
  | scope hdistinct hinside =>
    exact ⟨Datum.lookup?_plainEntries hdistinct hfield, Datum.mismatch?_self (hinside field hfield)⟩

theorem matches_self_iff : Matches (Datum.plainEntries false fields)
      (.text field.name, field.value.plain false) ↔ field.value.AllFinite := by
  obtain ⟨hlookup, htells⟩ := field_self hproduced hfield
  rw [← htells.iff_none]
  constructor
  · intro ⟨actual, hactual, hnone⟩
    rw [hlookup] at hactual
    obtain rfl := Option.some.inj hactual
    exact hnone
  · exact fun hnone => ⟨_, hlookup, hnone⟩

theorem exists_compareField_self : ∃ finding?,
    compareField (Datum.plainEntries false fields) (.text field.name) (field.value.plain false)
      = .ok finding? ∧ ∀ finding ∈ finding?, finding.hasNumerals = true := by
  obtain ⟨hlookup, htells⟩ := field_self hproduced hfield
  unfold compareField
  rw [hlookup]
  dsimp only
  match hmismatch : Datum.mismatch? Datum.defaultTolerance (field.value.plain false)
      (field.value.plain false), htells with
  | .ok none, _ => exact ⟨none, rfl, nofun⟩
  | .ok (some difference), htells =>
    refine ⟨some (.mismatch (.text field.name) difference), rfl, ?_⟩
    intro finding hfinding
    rw [← Option.some.inj hfinding]
    exact Bool.and_eq_true_iff.2 ⟨rfl, htells.2⟩

end

theorem all_match_self_iff (hproduced : (Datum.scope fields).Produced) :
    (∀ entry ∈ Datum.plainEntries false fields, Matches (Datum.plainEntries false fields) entry)
      ↔ fields.AllFinite := by
  rw [Scope.allFinite_iff]
  have hentries := Datum.plainEntries_eq_map false fields
  constructor
  · intro hmatches field hfield
    refine (matches_self_iff hproduced hfield).1 (hmatches _ ?_)
    rw [hentries]
    exact List.mem_map_of_mem hfield
  · intro hfinite entry hentry
    rw [hentries] at hentry
    obtain ⟨field, hfield, rfl⟩ := List.mem_map.1 hentry
    exact (matches_self_iff hproduced hfield).2 (hfinite field hfield)

theorem exists_compare_self (hproduced : (Datum.scope fields).Produced) : ∃ findings,
    compare (Datum.plainEntries false fields) (Datum.plainEntries false fields) = .ok findings := by
  apply exists_compare
  intro entry hentry
  rw [Datum.plainEntries_eq_map] at hentry
  obtain ⟨field, hfield, rfl⟩ := List.mem_map.1 hentry
  exact exists_compareField_self hproduced hfield

/-- A run has an outcome if its payload is decoded and what comes of it is compared. -/
theorem exists_run {vector : TestVector} {merged : Options} {decoded : Decoded}
    {judgement : Judgement} (hprepares : vector.Prepares codecs options bytes merged)
    (hdecode : schema.decodeBytes merged bytes = .ok decoded)
    (hcheck : vector.check (Datum.plainEntries false decoded.fields) = .ok judgement) :
    ∃ outcome, vector.run codecs schema options = .ok outcome := by
  cases hrun : vector.run codecs schema options with
  | ok outcome => exact ⟨outcome, rfl⟩
  | error breakdown =>
    unfold run at hrun
    rw [prepare_ok_iff.2 hprepares] at hrun
    rcases Except.bind_error_iff.1 hrun with hprepare | ⟨_, hprepare, hrun⟩
    · cases hprepare
    obtain rfl := Except.ok.inj hprepare
    dsimp only at hrun
    rw [hdecode] at hrun
    dsimp only at hrun
    rw [hcheck] at hrun
    cases hrun

theorem exists_outcome {vector : TestVector} {decoded : Decoded}
    (hdecode : schema.decodeBytes options bytes = .ok decoded)
    (hprepares : vector.Prepares codecs options bytes options) (herror : vector.error = none)
    (hexpected : vector.expected = some (decoded.fields.plain false)) :
    ∃ outcome, vector.run codecs schema options = .ok outcome ∧
      (outcome.passed = true ↔ decoded.fields.AllFinite) := by
  have hproduced := Schema.decodeBytes_produced hdecode
  obtain ⟨findings, hfindings⟩ := exists_compare_self hproduced
  have hcheck : vector.check (Datum.plainEntries false decoded.fields)
      = .ok { passed := findings.isEmpty, findings } := by
    unfold check
    rw [herror, hexpected]
    exact Except.bind_ok_iff.2 ⟨findings, hfindings, rfl⟩
  obtain ⟨outcome, hrun⟩ := exists_run hprepares hdecode hcheck
  refine ⟨outcome, hrun, ?_⟩
  rw [(run_ok hrun).passed, met_iff_of_ok hprepares hdecode, ← all_match_self_iff hproduced]
  constructor
  · intro ⟨_, expected, hsome, hmatches⟩
    obtain ⟨rfl⟩ := hexpected.symm.trans hsome
    exact hmatches
  · exact fun hmatches => ⟨herror, _, hexpected, hmatches⟩

/-- A decode is as it was recorded, and a vector that records it is passed, exactly if all doubles that
are decoded are finite. -/
theorem recorded_passes_iff_finite {decoded : Decoded}
    (hdecode : schema.decodeBytes options bytes = .ok decoded) :
    (Datum.mismatch? Datum.defaultTolerance (decoded.fields.plain false) (decoded.fields.plain false)
        = .ok none ↔ decoded.fields.AllFinite) ∧
      ∀ (codecs : Text.Codecs) (vector : TestVector),
        vector.Prepares codecs options bytes options → vector.error = none →
        vector.expected = some (decoded.fields.plain false) →
          ∃ outcome, vector.run codecs schema options = .ok outcome ∧
            (outcome.passed = true ↔ decoded.fields.AllFinite) := by
  have hself := Datum.mismatch?_self (Schema.decodeBytes_produced hdecode)
  refine ⟨hself.iff_none.trans (and_iff_right rfl), ?_⟩
  exact fun _ _ hprepares herror hexpected => exists_outcome hdecode hprepares herror hexpected

end TestVector

def Schema.measurement : Schema where
  types := { frozen := true }
  root := some [
    .field { name := "n", type := .primitive .byte, pos := ⟨1, 10⟩ },
    .field { name := "x", type := .primitive .double, pos := ⟨1, 20⟩ }]

def measured (x : Number.Double) : Scope :=
  [{ kind := .primitive, name := "n", offset := 0, size := 1, typeName := "byte", value := .int 7 },
   { kind := .primitive, name := "x", offset := 1, size := 8, typeName := "double", value := .double x }]

namespace TestVector

def ofMeasurement (bytes : List UInt8) (x : Number.Double) : TestVector :=
  { payload := some (.bytes bytes), expected := some ((measured x).plain false) }

/-- One and a half. -/
theorem recorded_passes_iff_finite_measurement :
    let bytes : List UInt8 := [7, 0, 0, 0, 0, 0, 0, 0xf8, 0x3f]
    let fields := measured ⟨0x3ff8000000000000⟩
    let vector := ofMeasurement bytes ⟨0x3ff8000000000000⟩
    Schema.measurement.decodeBytes {} bytes = .ok ⟨fields, 9, []⟩ ∧
      vector.Prepares .listed {} bytes {} ∧ vector.error = none ∧ vector.expected = some (fields.plain false) ∧
      (Datum.mismatch? Datum.defaultTolerance (fields.plain false) (fields.plain false) = .ok none ↔
        fields.AllFinite) ∧
      ∃ outcome, vector.run .listed .measurement {} = .ok outcome ∧
        (outcome.passed = true ↔ fields.AllFinite) := by
  intro bytes fields vector
  have hdecode : Schema.measurement.decodeBytes {} bytes = .ok ⟨fields, 9, []⟩ := by
    rfl
  have hprepares : vector.Prepares .listed {} bytes {} := ⟨⟨_, rfl, rfl⟩, rfl⟩
  obtain ⟨hself, hruns⟩ := recorded_passes_iff_finite hdecode
  exact ⟨hdecode, hprepares, rfl, rfl, hself, hruns .listed vector hprepares rfl rfl⟩

/-- Infinity is no NaN, and still it is not as it was recorded. -/
theorem recorded_infinity_fails :
    let bytes : List UInt8 := [7, 0, 0, 0, 0, 0, 0, 0xf0, 0x7f]
    let infinity : Number.Double := ⟨0x7ff0000000000000⟩
    let plain := (measured infinity).plain false
    Schema.measurement.decodeBytes {} bytes = .ok ⟨measured infinity, 9, []⟩ ∧
      measured infinity ≠ [] ∧
      (∀ field ∈ (measured infinity).everywhere, ∀ x, field.value = .double x → x.isNaN = false) ∧
      Datum.mismatch? Datum.defaultTolerance plain plain
        = .ok (some (.atKey (.text "x") (.different (.double infinity) (.double infinity)))) ∧
      ∃ outcome, (ofMeasurement bytes infinity).run .listed .measurement {} = .ok outcome ∧
        outcome.passed = false := by
  intro bytes infinity plain
  have hdecode : Schema.measurement.decodeBytes {} bytes = .ok ⟨measured infinity, 9, []⟩ := by
    rfl
  have hinfinite : infinity.isFinite = false := by
    decide +kernel
  have hvalues : ∀ field ∈ (measured infinity).everywhere, ∀ x,
      field.value = .double x → x.isNaN = false := by
    intro field hfield x hx
    rcases List.mem_cons.1 hfield with rfl | hfield
    · cases hx
    · obtain rfl := List.mem_singleton.1 hfield
      obtain rfl := Datum.double.inj hx
      decide +kernel
  have hdifference : Datum.mismatch? Datum.defaultTolerance plain plain
      = .ok (some (.atKey (.text "x") (.different (.double infinity) (.double infinity)))) := by
    have hsame : Datum.mismatch? Datum.defaultTolerance (.int 7) (.int 7) = .ok none :=
      Datum.mismatchSimple_int 7
    have hdifferent : Datum.mismatch? Datum.defaultTolerance (.double infinity) (.double infinity)
        = .ok (some (.different (.double infinity) (.double infinity))) := by
      refine (Datum.mismatchSimple_double infinity).trans ?_
      rw [hinfinite]
      rfl
    show Datum.mismatchEntries? _ [(.text "n", .int 7), (.text "x", .double infinity)]
      [(.text "n", .int 7), (.text "x", .double infinity)] = _
    have hn : Datum.lookup? [(.text "n", .int 7), (.text "x", .double infinity)] (.text "n")
        = some (.int 7) := rfl
    have hx : Datum.lookup? [(.text "n", .int 7), (.text "x", .double infinity)] (.text "x")
        = some (.double infinity) := rfl
    rw [Datum.mismatchEntries?_of_same hn hsame, Datum.mismatchEntries?_of_different hx hdifferent]
  have hprepares : (ofMeasurement bytes infinity).Prepares .listed {} bytes {} := ⟨⟨_, rfl, rfl⟩, rfl⟩
  obtain ⟨outcome, hrun, hpassed⟩ := exists_outcome hdecode hprepares rfl rfl
  refine ⟨hdecode, List.cons_ne_nil _ _, hvalues, hdifference, outcome, hrun, ?_⟩
  rw [Bool.eq_false_iff, Ne, hpassed]
  intro hfinite
  have hx := hfinite _ (List.mem_cons_of_mem _ List.mem_cons_self)
  exact Bool.false_ne_true (hinfinite.symm.trans hx)

end TestVector

end BinarySchema
