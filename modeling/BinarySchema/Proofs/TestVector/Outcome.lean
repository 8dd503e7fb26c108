import BinarySchema.Proofs.Datum.Differences
import BinarySchema.Proofs.Decode.Limits
import BinarySchema.Proofs.Options.Merging
import BinarySchema.Proofs.Payload.Renderings
import BinarySchema.TestVector

/-!
# Outcomes of test vectors

What a run of a test vector comes to. An outcome is passed exactly if the vector is met: its payload and
options are valid, and decoding gives what the vector expects. So a vector with something in it that is
malformed has failed, if it has an outcome at all.

A run has no outcome only if something in the vector is of the wrong type, if a number is beyond a limit,
or if the codec of the options is not for text. `Breaks` lists these causes. Each is stated of what the
vector holds, of what is decoded or of what the decode encounters, and none of how the run comes to it.
-/

namespace BinarySchema

namespace TestVector

variable {codecs : Text.Codecs} {schema : Schema} {options merged : Options} {vector : TestVector}
  {bytes : List UInt8} {decoded expected : List (Datum × Datum)} {breakdown : Breakdown}

/-- That the payload of a vector is some bytes, and they are decoded with some options. -/
structure Prepares (codecs : Text.Codecs) (options : Options) (vector : TestVector) (bytes : List UInt8)
    (merged : Options) : Prop where
  payload : ∃ payload, vector.payload = some payload ∧ Payload.ofDatum payload = .ok bytes
  options : match vector.options with
    | none => merged = options
    | some overrides => options.merged codecs overrides = .ok merged

/-- That the message of a failure contains the text of a value. Codes that are no characters it cannot
contain. -/
def Mentions (error : Datum) (failure : Failure) : Prop :=
  (∀ points, error ≠ .codes points) ∧ error.plainText.toList <:+: failure.message.toList

/-- That an expected field is decoded with a value that matches. -/
def Matches (decoded : List (Datum × Datum)) (field : Datum × Datum) : Prop :=
  ∃ actual, Datum.lookup? decoded field.1 = some actual ∧
    Datum.mismatch? Datum.defaultTolerance field.2 actual = .ok none

/-- That a vector is well-formed and decoding gives what it expects. -/
inductive Met (codecs : Text.Codecs) (schema : Schema) (options : Options) (vector : TestVector) : Prop
  | fails {bytes : List UInt8} {merged : Options} {failure : Failure} {error : Datum}
      (hprepares : vector.Prepares codecs options bytes merged)
      (hdecode : schema.decodeBytes merged bytes = .error failure)
      (herror : vector.error = some error) (hmentions : Mentions error failure)
  | gives {bytes : List UInt8} {merged : Options} {result : Decoded} {expected : List (Datum × Datum)}
      (hprepares : vector.Prepares codecs options bytes merged)
      (hdecode : schema.decodeBytes merged bytes = .ok result) (herror : vector.error = none)
      (hexpected : vector.expected = some (.map expected))
      (hmatches : ∀ field ∈ expected, Matches (Datum.plainEntries false result.fields) field)

/-- That an outcome is about a vector, and passed exactly if the vector is met. -/
structure Reports (codecs : Text.Codecs) (schema : Schema) (options : Options) (vector : TestVector)
    (outcome : Outcome) : Prop where
  name : outcome.name = vector.name
  description : outcome.description = vector.description
  passed : outcome.passed = true ↔ vector.Met codecs schema options

/-- That a vector passes exactly if it got nothing wrong. -/
def Judgement.Agrees (judgement : Judgement) : Prop :=
  judgement.passed = true ↔ judgement.findings = []

theorem Judgement.Agrees.passed : Judgement.Agrees { passed := true } :=
  iff_of_true rfl rfl

theorem Judgement.Agrees.failed {findings : List Finding} (h : findings ≠ []) :
    Judgement.Agrees { findings } :=
  iff_of_false Bool.false_ne_true h

theorem Judgement.Agrees.of_isEmpty (findings : List Finding) :
    Judgement.Agrees { passed := findings.isEmpty, findings } :=
  List.isEmpty_iff

/-- The values that findings about a vector are about: what it expects, and what is decoded. -/
inductive Concerns (codecs : Text.Codecs) (schema : Schema) (options : Options) (vector : TestVector) :
    Datum → Prop
  | error {error : Datum} (herror : vector.error = some error) : Concerns codecs schema options vector error
  | expected {expected : Datum} (hexpected : vector.expected = some expected) :
      Concerns codecs schema options vector expected
  | decoded {bytes : List UInt8} {merged : Options} {result : Decoded}
      (hprepares : vector.Prepares codecs options bytes merged)
      (hdecode : schema.decodeBytes merged bytes = .ok result) :
      Concerns codecs schema options vector (.map (Datum.plainEntries false result.fields))

/-- That a run breaks off for an integer in some values: it has no numeral, or it is beyond the doubles. -/
inductive Beyond (values : Datum → Prop) : Breakdown → Prop
  | numeral {value : Datum} (hvalue : values value) (hnumerals : value.hasNumerals = false) :
      Beyond values .numeralTooLong
  | range {value : Datum} {n : Int} (hvalue : values value) (hinside : value.Inside n)
      (hbeyond : Number.Double.ofInt? n = none) : Beyond values (.range .beyondDoubles)

/-- Why a run of a vector has no outcome. -/
inductive Breaks (codecs : Text.Codecs) (schema : Schema) (options : Options) (vector : TestVector) :
    Breakdown → Prop
  | item {items : List Datum} {item : Datum} (hpayload : vector.payload = some (.list items))
      (hitem : item ∈ items) (hinteger : ¬ Payload.IsInteger item) :
      Breaks codecs schema options vector (.payload .notInteger)
  | names {overrides : Datum} (hoptions : vector.options = some overrides)
      (hnames : ¬ overrides.HasNames) : Breaks codecs schema options vector (.options .notNamed)
  | fields {expected : Datum} (herror : vector.error = none) (hexpected : vector.expected = some expected)
      (hmap : ∀ fields, expected ≠ .map fields) : Breaks codecs schema options vector .notMap
  | nothing (herror : vector.error = none) (hexpected : vector.expected = none) :
      Breaks codecs schema options vector (.missing "expected")
  | limit {bytes : List UInt8} {merged : Options} {failure : Failure} {encounter : Encounter}
      (hprepares : vector.Prepares codecs options bytes merged)
      (hdecode : schema.decodeBytes merged bytes = .error failure)
      (hencounter : encounter ∈ schema.encounters merged (.ofBytes bytes))
      (hexceeds : encounter.Exceeds merged.textEncoding.codec failure) :
      Breaks codecs schema options vector (.decode failure)
  | number {breakdown : Breakdown} (hbeyond : Beyond (Concerns codecs schema options vector) breakdown) :
      Breaks codecs schema options vector breakdown

/-- Parts of values have no integers but theirs. -/
theorem Beyond.mono {values wider : Datum → Prop} (h : Beyond values breakdown)
    (hparts : ∀ value, values value → ∃ whole, wider whole ∧ value.Part whole) :
    Beyond wider breakdown := by
  cases h with
  | numeral hvalue hnumerals =>
    obtain ⟨whole, hwhole, hpart⟩ := hparts _ hvalue
    refine .numeral hwhole ?_
    cases hall : whole.hasNumerals with
    | false => rfl
    | true =>
      rw [hpart.numerals hall] at hnumerals
      cases hnumerals
  | range hvalue hinside hbeyond =>
    obtain ⟨whole, hwhole, hpart⟩ := hparts _ hvalue
    exact .range hwhole (hpart.inside hinside) hbeyond

theorem mentions_iff {error : Datum} {failure : Failure} :
    mentions error failure = true ↔ Mentions error failure := by
  unfold mentions Mentions
  rw [← Text.contains_iff]
  split
  · rename_i points
    exact iff_of_false Bool.false_ne_true fun h => h.1 points rfl
  · rename_i hcodes
    exact (and_iff_right hcodes).symm

/-! ### Payload and options -/

theorem prepare_ok_iff : vector.prepare codecs options = .ok (.ok (bytes, merged)) ↔
    vector.Prepares codecs options bytes merged := by
  constructor
  · intro h
    unfold prepare at h
    cases hpayload : vector.payload with
    | none =>
      rw [hpayload] at h
      cases h
    | some payload =>
      rw [hpayload] at h
      dsimp only at h
      cases hread : Payload.ofDatum payload with
      | error error =>
        rw [hread] at h
        dsimp only at h
        split at h <;> cases h
      | ok read =>
        rw [hread] at h
        cases hoptions : vector.options with
        | none =>
          rw [hoptions] at h
          cases h
          exact ⟨⟨payload, hpayload, hread⟩, by rw [hoptions]⟩
        | some overrides =>
          rw [hoptions] at h
          dsimp only at h
          cases hmerged : options.merged codecs overrides with
          | error error =>
            rw [hmerged] at h
            dsimp only at h
            split at h <;> cases h
          | ok result =>
            rw [hmerged] at h
            cases h
            exact ⟨⟨payload, hpayload, hread⟩, by rw [hoptions]; exact hmerged⟩
  · rintro ⟨⟨payload, hpayload, hread⟩, hoptions⟩
    unfold prepare
    rw [hpayload]
    dsimp only
    rw [hread]
    dsimp only
    cases hoverrides : vector.options with
    | none =>
      rw [hoverrides] at hoptions
      cases hoptions
      rfl
    | some overrides =>
      rw [hoverrides] at hoptions
      dsimp only at hoptions ⊢
      rw [hoptions]
      rfl

/-- What is wrong with the payload or the options of a vector is found out, or their types are. -/
theorem prepare_error (hpayload : vector.payload.isSome = true)
    (h : vector.prepare codecs options = .error breakdown) :
    vector.Breaks codecs schema options breakdown := by
  obtain ⟨payload, hsome⟩ := Option.isSome_iff_exists.1 hpayload
  unfold prepare at h
  rw [hsome] at h
  dsimp only at h
  split at h
  · rename_i error herror
    split at h
    · cases h
    · rename_i hcontent
      cases h
      obtain ⟨rfl, items, rfl, item, hitem, hinteger⟩ :=
        Payload.ofDatum_error herror (by simpa using hcontent)
      exact .item hsome hitem hinteger
  · split at h
    · rename_i overrides hoverrides
      split at h
      · cases h
      · rename_i error herror
        split at h
        · cases h
        · rename_i hcontent
          cases h
          obtain ⟨rfl, hnames⟩ := Options.merged_error herror (by simpa using hcontent)
          exact .names hoverrides hnames
    · cases h

/-! ### Comparing fields -/

/-- The two values of a comparison. -/
def Compared (expected decoded : Datum) (value : Datum) : Prop :=
  value = expected ∨ value = decoded

/-- What is compared behind the first expected field is part of what is compared at all. -/
theorem Beyond.tail {field : Datum × Datum}
    (h : Beyond (Compared (.map expected) (.map decoded)) breakdown) :
    Beyond (Compared (.map (field :: expected)) (.map decoded)) breakdown := by
  refine h.mono ?_
  rintro _ (rfl | rfl)
  · exact ⟨_, .inl rfl, .tail_map⟩
  · exact ⟨_, .inr rfl, .refl _⟩

/-- Comparing a field tells whether it matches. The finding can be written if what is compared can. -/
theorem compareField_cases (decoded expected : List (Datum × Datum)) (name value : Datum) :
    match compareField decoded name value with
    | .ok none => Matches decoded (name, value)
    | .ok (some finding) => ¬ Matches decoded (name, value) ∧
      (finding.hasNumerals = false →
        Beyond (Compared (.map ((name, value) :: expected)) (.map decoded)) .numeralTooLong)
    | .error breakdown =>
      Beyond (Compared (.map ((name, value) :: expected)) (.map decoded)) breakdown := by
  have hunwritten {finding : Finding}
      (h : (Datum.map ((name, value) :: expected)).hasNumerals = true →
        (Datum.map decoded).hasNumerals = true → finding.hasNumerals = true)
      (hfinding : finding.hasNumerals = false) :
      Beyond (Compared (.map ((name, value) :: expected)) (.map decoded)) .numeralTooLong := by
    cases hexpected : (Datum.map ((name, value) :: expected)).hasNumerals with
    | false => exact .numeral (.inl rfl) hexpected
    | true =>
      cases hdecoded : (Datum.map decoded).hasNumerals with
      | false => exact .numeral (.inr rfl) hdecoded
      | true =>
        rw [h hexpected hdecoded] at hfinding
        cases hfinding
  unfold compareField
  cases hactual : Datum.lookup? decoded name with
  | none =>
    dsimp only
    refine ⟨?_, hunwritten fun hexpected _ => Datum.Part.head_key.numerals hexpected⟩
    rintro ⟨actual, hsome, -⟩
    rw [hactual] at hsome
    cases hsome
  | some actual =>
    have hvalue : value.Part (.map ((name, value) :: expected)) := .head_value
    have haccounts :=
      (Datum.mismatch?_accounts Datum.defaultTolerance value actual).mono hvalue (.of_lookup? hactual)
    dsimp only
    cases hmismatch : Datum.mismatch? Datum.defaultTolerance value actual with
    | error fault =>
      obtain ⟨n, hbeyond, hinside | hinside⟩ := haccounts.range hmismatch
      · cases fault
        exact .range (.inl rfl) hinside hbeyond
      · cases fault
        exact .range (.inr rfl) hinside hbeyond
    | ok difference? =>
      cases difference? with
      | none => exact ⟨actual, hactual, hmismatch⟩
      | some difference =>
        refine ⟨?_, hunwritten fun hexpected hdecoded => ?_⟩
        · rintro ⟨other, hother, hnone⟩
          cases hactual.symm.trans hother
          cases hmismatch.symm.trans hnone
        · exact Bool.and_eq_true_iff.2 ⟨Datum.Part.head_key.numerals hexpected,
            haccounts.writable hmismatch hexpected hdecoded⟩

theorem report_error {finding : Finding} (h : report finding = .error breakdown) :
    breakdown = .numeralTooLong ∧ finding.hasNumerals = false := by
  unfold report at h
  split at h
  · cases h
  · rename_i hnumerals
    cases h
    exact ⟨rfl, by simpa using hnumerals⟩

theorem compare_ok {findings : List Finding} (h : compare decoded expected = .ok findings) :
    findings = [] ↔ ∀ field ∈ expected, Matches decoded field := by
  induction expected generalizing findings with
  | nil =>
    cases h
    simp
  | cons field rest ih =>
    obtain ⟨name, value⟩ := field
    have hfield := compareField_cases decoded rest name value
    unfold compare at h
    obtain ⟨finding?, hcompare, h⟩ := Except.bind_ok_iff.1 h
    rw [hcompare] at hfield
    cases finding? with
    | none =>
      rw [List.forall_mem_cons, ← ih h]
      exact (and_iff_right hfield).symm
    | some finding =>
      obtain ⟨reported, -, h⟩ := Except.bind_ok_iff.1 h
      obtain ⟨others, -, h⟩ := Except.bind_ok_iff.1 h
      cases h
      exact iff_of_false (List.cons_ne_nil _ _) fun hall => hfield.1 (hall _ List.mem_cons_self)

theorem compare_error (h : compare decoded expected = .error breakdown) :
    Beyond (Compared (.map expected) (.map decoded)) breakdown := by
  induction expected with
  | nil => cases h
  | cons field rest ih =>
    obtain ⟨name, value⟩ := field
    have hfield := compareField_cases decoded rest name value
    unfold compare at h
    rcases Except.bind_error_iff.1 h with hcompare | ⟨finding?, hcompare, h⟩
    · rw [hcompare] at hfield
      exact hfield
    rw [hcompare] at hfield
    cases finding? with
    | none => exact (ih h).tail
    | some finding =>
      rcases Except.bind_error_iff.1 h with hreport | ⟨reported, -, h⟩
      · obtain ⟨rfl, hfinding⟩ := report_error hreport
        exact hfield.2 hfinding
      · rcases Except.bind_error_iff.1 h with hrest | ⟨others, -, h⟩
        · exact (ih hrest).tail
        · cases h

/-! ### Runs -/

section

variable (hprepares : vector.Prepares codecs options bytes merged)

include hprepares

theorem Prepares.unique {bytes' : List UInt8} {merged' : Options}
    (h : vector.Prepares codecs options bytes' merged') : bytes' = bytes ∧ merged' = merged := by
  have hsame := (prepare_ok_iff.2 h).symm.trans (prepare_ok_iff.2 hprepares)
  cases hsame
  exact ⟨rfl, rfl⟩

theorem met_iff_of_error {failure : Failure} (hdecode : schema.decodeBytes merged bytes = .error failure) :
    vector.Met codecs schema options ↔ ∃ error, vector.error = some error ∧ Mentions error failure := by
  constructor
  · rintro (⟨hother, hfails, herror, hmentions⟩ | ⟨hother, hgives, -, -, -⟩)
    · obtain ⟨rfl, rfl⟩ := hprepares.unique hother
      cases hdecode.symm.trans hfails
      exact ⟨_, herror, hmentions⟩
    · obtain ⟨rfl, rfl⟩ := hprepares.unique hother
      cases hdecode.symm.trans hgives
  · rintro ⟨error, herror, hmentions⟩
    exact .fails hprepares hdecode herror hmentions

theorem met_iff_of_ok {result : Decoded} (hdecode : schema.decodeBytes merged bytes = .ok result) :
    vector.Met codecs schema options ↔ vector.error = none ∧ ∃ expected,
      vector.expected = some (.map expected) ∧
        ∀ field ∈ expected, Matches (Datum.plainEntries false result.fields) field := by
  constructor
  · rintro (⟨hother, hfails, -, -⟩ | ⟨hother, hgives, herror, hexpected, hmatches⟩)
    · obtain ⟨rfl, rfl⟩ := hprepares.unique hother
      cases hdecode.symm.trans hfails
    · obtain ⟨rfl, rfl⟩ := hprepares.unique hother
      cases hdecode.symm.trans hgives
      exact ⟨herror, _, hexpected, hmatches⟩
  · rintro ⟨herror, expected, hexpected, hmatches⟩
    exact .gives hprepares hdecode herror hexpected hmatches

end

theorem checkFailure_ok {failure : Failure} {judgement : Judgement}
    (h : vector.checkFailure failure = .ok judgement) : judgement.Agrees ∧
      (judgement.passed = true ↔ ∃ error, vector.error = some error ∧ Mentions error failure) := by
  unfold checkFailure at h
  split at h
  · rename_i hnone
    cases h
    refine ⟨.failed (List.cons_ne_nil _ _), iff_of_false Bool.false_ne_true ?_⟩
    rintro ⟨error, hsome, -⟩
    cases hnone.symm.trans hsome
  · rename_i error herror
    split at h
    · cases h
    split at h
    · rename_i hmentions
      cases h
      exact ⟨.passed, iff_of_true rfl ⟨error, herror, mentions_iff.1 hmentions⟩⟩
    · rename_i hmentions
      cases h
      refine ⟨.failed (List.cons_ne_nil _ _), iff_of_false Bool.false_ne_true ?_⟩
      rintro ⟨other, hother, hsome⟩
      cases herror.symm.trans hother
      exact hmentions (mentions_iff.2 hsome)

theorem check_ok {judgement : Judgement} (h : vector.check decoded = .ok judgement) : judgement.Agrees ∧
    (judgement.passed = true ↔ vector.error = none ∧ ∃ expected,
      vector.expected = some (.map expected) ∧ ∀ field ∈ expected, Matches decoded field) := by
  unfold check at h
  split at h
  · rename_i error herror
    obtain ⟨finding, -, h⟩ := Except.bind_ok_iff.1 h
    cases h
    refine ⟨.failed (List.cons_ne_nil _ _), iff_of_false Bool.false_ne_true ?_⟩
    rintro ⟨hnone, -⟩
    cases herror.symm.trans hnone
  · rename_i expected hnone hexpected
    obtain ⟨findings, hcompare, h⟩ := Except.bind_ok_iff.1 h
    cases h
    refine ⟨.of_isEmpty findings, ?_⟩
    rw [List.isEmpty_iff, compare_ok hcompare]
    constructor
    · intro hmatches
      exact ⟨hnone, expected, hexpected, hmatches⟩
    · rintro ⟨-, other, hother, hmatches⟩
      cases hexpected.symm.trans hother
      exact hmatches
  · cases h
  · cases h

/-- A run is passed exactly if the vector is met, and exactly if nothing is found wrong. -/
theorem run_judges {outcome : Outcome} (h : vector.run codecs schema options = .ok outcome) :
    vector.Reports codecs schema options outcome ∧ outcome.Agrees := by
  unfold run at h
  obtain ⟨prepared, hprepare, h⟩ := Except.bind_ok_iff.1 h
  cases prepared with
  | error finding =>
    cases h
    refine ⟨⟨rfl, rfl, iff_of_false Bool.false_ne_true ?_⟩, .failed (List.cons_ne_nil _ _)⟩
    have hunprepared {bytes : List UInt8} {merged : Options}
        (hprepares : vector.Prepares codecs options bytes merged) : False := by
      cases (prepare_ok_iff.2 hprepares).symm.trans hprepare
    rintro (⟨hprepares, -, -, -⟩ | ⟨hprepares, -, -, -, -⟩) <;> exact hunprepared hprepares
  | ok prepared =>
    obtain ⟨bytes, merged⟩ := prepared
    have hprepares := prepare_ok_iff.1 hprepare
    dsimp only at h
    split at h
    · rename_i failure hdecode
      split at h
      · obtain ⟨judgement, hjudgement, h⟩ := Except.bind_ok_iff.1 h
        cases h
        obtain ⟨hagrees, hpassed⟩ := checkFailure_ok hjudgement
        exact ⟨⟨rfl, rfl, hpassed.trans (met_iff_of_error hprepares hdecode).symm⟩, hagrees⟩
      · cases h
    · rename_i result hdecode
      obtain ⟨judgement, hjudgement, h⟩ := Except.bind_ok_iff.1 h
      cases h
      obtain ⟨hagrees, hpassed⟩ := check_ok hjudgement
      exact ⟨⟨rfl, rfl, hpassed.trans (met_iff_of_ok hprepares hdecode).symm⟩, hagrees⟩

theorem run_ok {outcome : Outcome} (h : vector.run codecs schema options = .ok outcome) :
    vector.Reports codecs schema options outcome :=
  (run_judges h).1

theorem checkFailure_error {failure : Failure} (h : vector.checkFailure failure = .error breakdown) :
    vector.Breaks codecs schema options breakdown := by
  unfold checkFailure at h
  split at h
  · cases h
  · rename_i error herror
    split at h
    · rename_i hnumerals
      cases h
      exact .number (.numeral (.error herror) (by simpa using hnumerals))
    · split at h <;> cases h

theorem check_error {result : Decoded} (hprepares : vector.Prepares codecs options bytes merged)
    (hdecode : schema.decodeBytes merged bytes = .ok result)
    (h : vector.check (Datum.plainEntries false result.fields) = .error breakdown) :
    vector.Breaks codecs schema options breakdown := by
  unfold check at h
  split at h
  · rename_i error herror
    rcases Except.bind_error_iff.1 h with hreport | ⟨finding, -, h⟩
    · obtain ⟨rfl, hnumerals⟩ := report_error hreport
      exact .number (.numeral (.error herror) hnumerals)
    · cases h
  · rename_i expected hnone hexpected
    rcases Except.bind_error_iff.1 h with hcompare | ⟨findings, -, h⟩
    · refine .number ((compare_error hcompare).mono ?_)
      rintro _ (rfl | rfl)
      · exact ⟨_, .expected hexpected, .refl _⟩
      · exact ⟨_, .decoded hprepares hdecode, .refl _⟩
    · cases h
  · rename_i expected hmap hnone hexpected
    cases h
    exact .fields hnone hexpected fun fields hfields => hmap fields hfields
  · rename_i hnone hexpected
    cases h
    exact .nothing hnone hexpected

theorem decode_breaks {failure : Failure} (hprepares : vector.Prepares codecs options bytes merged)
    (hdecode : schema.decodeBytes merged bytes = .error failure) (hends : failure ≠ .endless)
    (hschema : failure.isSchemaError = false) : vector.Breaks codecs schema options (.decode failure) := by
  rcases Schema.decodeBytes_bounds hdecode hends with herror | ⟨encounter, hencounter, hexceeds⟩
  · rw [hschema] at herror
    cases herror
  · exact .limit hprepares hdecode hencounter hexceeds

/-- A run without an outcome has one of the known causes, if decoding ends. -/
theorem run_error (hpayload : vector.payload.isSome = true)
    (hends : ∀ bytes merged, vector.Prepares codecs options bytes merged →
      schema.decodeBytes merged bytes ≠ .error .endless)
    (h : vector.run codecs schema options = .error breakdown) :
    vector.Breaks codecs schema options breakdown := by
  unfold run at h
  rcases Except.bind_error_iff.1 h with hprepare | ⟨prepared, hprepare, h⟩
  · exact prepare_error hpayload hprepare
  cases prepared with
  | error finding => cases h
  | ok prepared =>
    obtain ⟨bytes, merged⟩ := prepared
    have hprepares := prepare_ok_iff.1 hprepare
    dsimp only at h
    split at h
    · rename_i failure hdecode
      split at h
      · rcases Except.bind_error_iff.1 h with hfindings | ⟨findings, -, h⟩
        · exact checkFailure_error hfindings
        · cases h
      · rename_i hschema
        cases h
        refine decode_breaks hprepares hdecode ?_ (by simpa using hschema)
        rintro rfl
        exact hends bytes merged hprepares hdecode
    · rename_i result hdecode
      rcases Except.bind_error_iff.1 h with hfindings | ⟨findings, -, h⟩
      · exact check_error hprepares hdecode hfindings
      · cases h

/-- Options may name a codec that is not for text. It breaks the run off where it is given a character. -/
example :
    let schema : Schema := {
      types := { frozen := true }
      root := some [.field { name := "c", type := .primitive .char, pos := .first }] }
    let vector := ofMap (.map [(.text "payload", .text "41"), (.text "expected", .map []),
      (.text "options", .map [(.text "text_encoding", .text "hex")])])
    (match vector.run .listed schema {} with
    | .error (.decode (.codec fault)) => some fault
    | _ => none) = some (.notText "hex") := by
  decide +kernel

end TestVector

end BinarySchema
