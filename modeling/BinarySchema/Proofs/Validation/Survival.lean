import BinarySchema.Datum.Yaml.Library
import BinarySchema.Proofs.Decode.Termination
import BinarySchema.Proofs.TestVector.Outcome
import BinarySchema.Validation
import Mathlib.Data.List.Forall2

/-!
# Validations of accepted vectors

A vector file that is accepted has a list of maps, each with a payload. Validating a schema with it gives
an outcome for each vector, in the order of the file, unless a vector breaks its run off; then there is no
validation at all, whatever the other vectors are.
-/

namespace BinarySchema

namespace TestVector

/-- What the shape of a vector is checked for, as far as runs rely on it. -/
structure WellShaped (datum : Datum) : Prop where
  isMap : ∃ entries, datum = .map entries
  payload : (ofMap datum).payload.isSome = true

theorem checkShape_ok {datum : Datum} (h : checkShape datum = .ok ()) : WellShaped datum := by
  unfold checkShape at h
  split at h
  · split at h
    · cases h
    · rename_i entries hpayload
      refine ⟨⟨entries, rfl⟩, ?_⟩
      cases hget : (Datum.map entries).get? "payload" with
      | none =>
        rw [hget] at hpayload
        exact absurd rfl hpayload
      | some payload =>
        rw [ofMap, hget]
        rfl
  · cases h

theorem checkShapes_ok {index : Nat} {items : List Datum} (h : checkShapes index items = .ok ()) :
    ∀ item ∈ items, WellShaped item := by
  induction items generalizing index with
  | nil => exact List.forall_mem_nil _
  | cons item rest ih =>
    obtain ⟨⟨⟩, hitem, hrest⟩ := Except.bind_ok_iff.1 h
    exact List.forall_mem_cons.2 ⟨checkShape_ok (Except.mapError_ok_iff.1 hitem), ih hrest⟩

theorem checkFile_ok {path : String} {datum file : Datum} (h : checkFile path datum = .ok file) :
    (∃ entries, file = .map entries) ∧ ∃ items,
      (file.get? "test_vectors").getD (.list []) = .list items ∧ ∀ item ∈ items, WellShaped item := by
  unfold checkFile at h
  dsimp only at h
  split at h
  · rename_i entries hmap
    split at h
    · rename_i items hitems
      obtain ⟨⟨⟩, hshapes, h⟩ := Except.bind_ok_iff.1 h
      cases h
      exact ⟨⟨entries, hmap⟩, items, hitems, checkShapes_ok hshapes⟩
    · cases h
  · cases h

end TestVector

namespace Validation

variable {codecs : Text.Codecs} {schema : Schema} {options : Options} {items : List Datum}

def vectorsOf (file : Datum) : List TestVector :=
  match file.get? "test_vectors" with
  | some (.list items) => items.map TestVector.ofMap
  | _ => []

theorem vectorsOf_eq {file : Datum}
    (h : (file.get? "test_vectors").getD (.list []) = .list items) :
    vectorsOf file = items.map TestVector.ofMap := by
  unfold vectorsOf
  split
  · rename_i given hget
    rw [hget] at h
    cases h
    rfl
  · rename_i hget
    cases hvectors : file.get? "test_vectors" with
    | none =>
      rw [hvectors] at h
      cases h
      rfl
    | some value =>
      rw [hvectors] at h
      exact absurd (hvectors.trans (congrArg some h)) (hget items)

theorem runAll_cons (entries : List (Datum × Datum)) (rest : List Datum) :
    runAll codecs schema options (.map entries :: rest) = (do
      let outcome ← (TestVector.ofMap (.map entries)).run codecs schema options
      let outcomes ← runAll codecs schema options rest
      return outcome :: outcomes) := by
  unfold runAll
  rw [List.mapM_cons]
  rfl

/-- Running vectors runs each by itself, in order. -/
theorem runAll_runs {outcomes : List TestVector.Outcome}
    (hitems : ∀ item ∈ items, TestVector.WellShaped item)
    (h : runAll codecs schema options items = .ok outcomes) :
    List.Forall₂ (fun vector outcome => TestVector.run codecs schema options vector = .ok outcome)
      (items.map TestVector.ofMap) outcomes := by
  induction items generalizing outcomes with
  | nil =>
    cases h
    exact .nil
  | cons item rest ih =>
    obtain ⟨hitem, hrest⟩ := List.forall_mem_cons.1 hitems
    obtain ⟨entries, rfl⟩ := hitem.isMap
    rw [runAll_cons] at h
    obtain ⟨outcome, hrun, h⟩ := Except.bind_ok_iff.1 h
    obtain ⟨others, hothers, h⟩ := Except.bind_ok_iff.1 h
    cases h
    exact .cons hrun (ih hrest hothers)

theorem runAll_ok {outcomes : List TestVector.Outcome} (hitems : ∀ item ∈ items, TestVector.WellShaped item)
    (h : runAll codecs schema options items = .ok outcomes) :
    List.Forall₂ (TestVector.Reports codecs schema options) (items.map TestVector.ofMap) outcomes :=
  (runAll_runs hitems h).imp fun _ _ => TestVector.run_ok

theorem runAll_error {breakdown : TestVector.Breakdown}
    (hitems : ∀ item ∈ items, TestVector.WellShaped item)
    (h : runAll codecs schema options items = .error breakdown) :
    ∃ vector ∈ items.map TestVector.ofMap,
      vector.payload.isSome = true ∧ vector.run codecs schema options = .error breakdown := by
  induction items with
  | nil => cases h
  | cons item rest ih =>
    obtain ⟨hitem, hrest⟩ := List.forall_mem_cons.1 hitems
    obtain ⟨entries, rfl⟩ := hitem.isMap
    rw [runAll_cons] at h
    rcases Except.bind_error_iff.1 h with hrun | ⟨outcome, -, h⟩
    · exact ⟨_, List.mem_cons_self, hitem.payload, hrun⟩
    rcases Except.bind_error_iff.1 h with hothers | ⟨others, -, h⟩
    · obtain ⟨vector, hvector, hbroken⟩ := ih hrest hothers
      exact ⟨vector, List.mem_cons_of_mem _ hvector, hbroken⟩
    · cases h

/-- With a schema that has a root, validating is running the vectors. -/
theorem ofFile_eq (machine : Machine) {name : String} {entries : List (Datum × Datum)}
    (hcompile : Schema.compileFile machine.files name = .ok schema) (hroot : schema.root.isSome = true)
    (hitems : ((Datum.map entries).get? "test_vectors").getD (.list []) = .list items)
    (hoptions : sharedOptions machine.codecs ((Datum.map entries).get? "options") = .ok (.ok options)) :
    ofFile machine name (.map entries) = (runAll machine.codecs schema options items).map .run := by
  have hmap : (if (Datum.map entries).isEmpty then .map [] else .map entries) = Datum.map entries := by
    cases entries <;> rfl
  have hrooted : schema.root.isNone = false := by
    rw [Option.isNone_eq_false_iff]
    exact hroot
  unfold ofFile
  rw [hcompile]
  dsimp only
  rw [hmap]
  dsimp only
  rw [hoptions]
  dsimp only [bind, Except.bind]
  rw [hitems, hrooted, Bool.and_false]
  rw [if_neg Bool.false_ne_true]
  dsimp only [vectors]
  cases runAll machine.codecs schema options items <;> rfl

end Validation

/-- Validating a schema that compiles, and has a schema block with which decoding ends, with a file of
vectors that is accepted gives one outcome for each vector, in the order of the file, and an outcome is
passed only if its vector is well-formed and met. It breaks off only if one of the vectors has a payload
with an item that is no integer, options that are no map of names, fields that are no map or are missing
where no error is expected, or if its decode or its comparison encounters something beyond a limit. -/
theorem validation_reports_or_breaks (machine : Machine) {name path : String} {given file : Datum}
    {schema : Schema} {options : Options} (hcompile : Schema.compileFile machine.files name = .ok schema)
    (hroot : schema.root.isSome = true) (hfile : TestVector.checkFile path given = .ok file)
    (hoptions : Validation.sharedOptions machine.codecs (file.get? "options") = .ok (.ok options))
    (hends : ∀ vector ∈ Validation.vectorsOf file, ∀ bytes merged,
      vector.Prepares machine.codecs options bytes merged →
        schema.decodeBytes merged bytes ≠ .error .endless) :
    match Validation.ofFile machine name file with
    | .ok validation => ∃ outcomes, validation = .run outcomes ∧
        List.Forall₂ (TestVector.Reports machine.codecs schema options) (Validation.vectorsOf file) outcomes
    | .error breakdown => ∃ vector ∈ Validation.vectorsOf file,
        vector.Breaks machine.codecs schema options breakdown := by
  obtain ⟨⟨entries, rfl⟩, items, hitems, hshaped⟩ := TestVector.checkFile_ok hfile
  rw [Validation.ofFile_eq machine hcompile hroot hitems hoptions]
  rw [Validation.vectorsOf_eq hitems] at hends ⊢
  cases hall : Validation.runAll machine.codecs schema options items with
  | error breakdown =>
    obtain ⟨vector, hvector, hpayload, hbroken⟩ := Validation.runAll_error hshaped hall
    exact ⟨vector, hvector, TestVector.run_error hpayload (hends vector hvector) hbroken⟩
  | ok outcomes => exact ⟨outcomes, rfl, Validation.runAll_ok hshaped hall⟩

def FileSystem.level : FileSystem where
  files := [(["level"], "schema \x7b n : byte; \x7d".toList.map fun c => UInt8.ofNat c.toNat)]

def Schema.level : Schema where
  types := { frozen := true }
  root := some [.field { name := "n", type := .primitive .byte, pos := ⟨1, 10⟩ }]
  source := some "level"

theorem Schema.compileFile_of_level {fs : FileSystem}
    (htext : fs.readText (shortName "level") = .ok "schema \x7b n : byte; \x7d") :
    compileFile fs "level" = .ok .level := by
  unfold compileFile
  dsimp only
  rw [htext]
  cbv

theorem Schema.compileFile_level : compileFile .level "level" = .ok .level :=
  compileFile_of_level (by decide +kernel)

def Machine.level : Machine := .ofFiles .level

theorem Schema.level_ends (options : Options) (bytes : List UInt8) :
    Schema.level.decodeBytes options bytes ≠ .error .endless := by
  have hresolve : Schema.level.ReferencesResolve := by
    refine ⟨rfl, .nil, ?_, nofun⟩
    intro body hbody declared hdeclared
    cases hbody
    obtain rfl := List.mem_singleton.1 hdeclared
    trivial
  intro h
  unfold decodeBytes at h
  split at h
  · cases h
  · rename_i hdecode
    cases h
    exact decode_ends hresolve nofun hdecode rfl

namespace TestVector

def five (payload : Datum) : Datum :=
  .map [(.text "payload", payload), (.text "expected", .map [(.text "n", .int 5)])]

/-- A vector file that expects the byte five from payloads. -/
def fives (payloads : List Datum) : Datum :=
  .map [(.text "test_vectors", .list (payloads.map five))]

theorem exists_run_five : ∃ outcome, (ofMap (five (.text "05"))).run .listed .level {} = .ok outcome := by
  have hends : ((ofMap (five (.text "05"))).run .listed .level {}).toBool = true := by
    decide +kernel
  cases hrun : (ofMap (five (.text "05"))).run .listed .level {} with
  | error breakdown =>
    rw [hrun] at hends
    cases hends
  | ok outcome => exact ⟨outcome, rfl⟩

end TestVector

/-- The first of the vectors is met, and the second one is not. -/
theorem validation_reports_or_breaks_level :
    let file := TestVector.fives [.text "05", .text "06"]
    Schema.compileFile .level "level" = .ok .level ∧ Schema.level.root.isSome = true ∧
      TestVector.checkFile "vectors" file = .ok file ∧
      Validation.sharedOptions .listed (file.get? "options") = .ok (.ok {}) ∧
      (∀ vector ∈ Validation.vectorsOf file, ∀ bytes merged,
        vector.Prepares .listed {} bytes merged → Schema.level.decodeBytes merged bytes ≠ .error .endless) ∧
      (match Validation.ofFile .level "level" file with
      | .ok validation => ∃ outcomes, validation = .run outcomes ∧
          List.Forall₂ (TestVector.Reports .listed .level {}) (Validation.vectorsOf file) outcomes
      | .error breakdown => ∃ vector ∈ Validation.vectorsOf file,
          vector.Breaks .listed .level {} breakdown) := by
  intro file
  have hfile : TestVector.checkFile "vectors" file = .ok file := by
    cbv
  have hoptions : Validation.sharedOptions .listed (file.get? "options") = .ok (.ok {}) := by
    cbv
  have hends : ∀ vector ∈ Validation.vectorsOf file, ∀ bytes merged,
      vector.Prepares .listed {} bytes merged → Schema.level.decodeBytes merged bytes ≠ .error .endless :=
    fun _ _ bytes merged _ => Schema.level_ends merged bytes
  exact ⟨Schema.compileFile_level, rfl, hfile, hoptions, hends,
    validation_reports_or_breaks .level Schema.compileFile_level rfl hfile hoptions hends⟩

/-- An item of a payload that is text breaks the validation off, though the other vector is met and any
decode with the schema ends. -/
theorem validation_breaks_on_text_item :
    let file := TestVector.fives [.text "05", .list [.text "05"]]
    Schema.compileFile .level "level" = .ok .level ∧ Schema.level.root.isSome = true ∧
      (∀ options bytes, Schema.level.decodeBytes options bytes ≠ .error .endless) ∧
      TestVector.checkFile "vectors" file = .ok file ∧
      Validation.sharedOptions .listed (file.get? "options") = .ok (.ok {}) ∧
      Validation.ofFile .level "level" file = .error (.payload .notInteger) := by
  intro file
  have hoptions : Validation.sharedOptions .listed (file.get? "options") = .ok (.ok {}) := by
    cbv
  refine ⟨Schema.compileFile_level, rfl, Schema.level_ends, ?_, hoptions, ?_⟩
  · cbv
  · obtain ⟨outcome, hrun⟩ := TestVector.exists_run_five
    refine (Validation.ofFile_eq .level Schema.compileFile_level rfl rfl hoptions).trans ?_
    change (Validation.runAll .listed .level {} [TestVector.five (.text "05"),
      TestVector.five (.list [.text "05"])]).map .run = _
    rw [TestVector.five, Validation.runAll_cons, ← TestVector.five, hrun]
    rfl

end BinarySchema
