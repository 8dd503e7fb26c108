import BinarySchema.Command.Decode
import BinarySchema.Proofs.Datum.Writable
import BinarySchema.Proofs.Options.Merging
import BinarySchema.Proofs.Schema.Limits
import BinarySchema.Proofs.Validation.Survival

/-!
# Outputs of the decode command

The command prints all of a decode or nothing but an error: the result in the form that was asked for and
its warnings, or one message, which begins with the word. It breaks down instead if something it is given
is beyond a limit, if the file of the schema is no text, or if the encoding of the options is none of text.
`Breaks` lists these causes, each as a fact about the arguments, the files, the schema, what is decoded and
what the decode encounters.

Options can only be refused for their values, since the names of those that flags override are text. That
everything decoded has a form leaves the numerals as the only reason not to print it.
-/

namespace BinarySchema

/-! ### Limits of schemas and decodes -/

theorem CompileError.isAboutSource_of_isSchemaError {e : CompileError} (h : e.isSchemaError = true) :
    e.isAboutSource = true := by
  cases e <;> first | rfl | cases h

theorem Failure.isReportable_of_isSchemaError {failure : Failure} (h : failure.isSchemaError = true) :
    failure.isReportable = true := by
  cases failure <;> first | rfl | cases h

theorem FileError.nul_of_not_isAboutFile {error : FileError} (h : error.isAboutFile = false) :
    error.fault = .nulInName := by
  simpa [isAboutFile] using h

/-- A schema file that is not compiled, and not for what is wrong with a source or an include, is
beyond a limit, or no text. -/
theorem Schema.compileFile_error {fs : FileSystem} {name : String} {e : SchemaFileError}
    (h : compileFile fs name = .error e) (hfinding : e.isFinding = false) :
    (∃ error, e = .file error ∧ fs.readText (shortName name) = .error error) ∨
      ∃ error, e = .compile error ∧ (Root.file name).Exceeds fs error := by
  cases htext : (Root.file name).readText fs with
  | error error =>
    have hcompile : compileFile fs name = .error (.file error) := Root.compile_of_error htext
    obtain rfl := Except.error.inj (hcompile.symm.trans h)
    exact .inl ⟨error, rfl, htext⟩
  | ok text =>
    obtain ⟨met, result, hrun, hcompile⟩ := Root.exists_run htext
    have hresult : compileFile fs name = _ := hcompile
    rw [h] at hresult
    obtain ⟨error, hmap, rfl⟩ := Except.mapError_error_iff.1 hresult.symm
    obtain rfl := Except.map_error_iff.1 hmap
    have hstart : (Root.file name).Amid fs _ text _ _ := .start htext
    rcases hstart.of_error hrun with hschema | hexceeds
    · have hsource := CompileError.isAboutSource_of_isSchemaError hschema
      exact absurd (hsource.symm.trans hfinding) (by decide)
    · exact .inr ⟨error, rfl, hexceeds⟩

theorem Schema.decodeBytes_error {schema : Schema} {options : Options} {bytes : List UInt8}
    {failure : Failure} (h : schema.decodeBytes options bytes = .error failure)
    (hends : failure ≠ .endless) (hreport : failure.isReportable = false) :
    ∃ encounter ∈ schema.encounters options (.ofBytes bytes),
      encounter.Exceeds options.textEncoding.codec failure := by
  refine (decodeBytes_bounds h hends).resolve_left fun hschema => ?_
  have hreported := Failure.isReportable_of_isSchemaError hschema
  exact absurd (hreported.symm.trans hreport) (by decide)

namespace Command.DecodeRequest

variable {machine : Machine} {request : DecodeRequest} {arguments : List String}

/-! ### Options of arguments -/

theorem overridesOf_names (parsed : Parsed) : (Datum.map (overridesOf parsed)).HasNames := by
  refine ⟨_, rfl, ?_⟩
  intro entry hentry
  have hnamed {name : String} {value : Option Datum}
      (hmem : entry ∈ (value.map fun value => (Datum.text name, value)).toList) : entry.1.IsText := by
    obtain ⟨value, -, rfl⟩ := Option.map_eq_some_iff.1 (Option.mem_toList.1 hmem)
    trivial
  unfold overridesOf at hentry
  dsimp only at hentry
  rcases List.mem_append.1 hentry with hentry | hentry
  · rcases List.mem_append.1 hentry with hentry | hentry
    · rcases List.mem_append.1 hentry with hentry | hentry
      · exact hnamed hentry
      · exact hnamed hentry
    · exact hnamed hentry
  · exact hnamed hentry

theorem ofArguments_names (h : ofArguments arguments = .ok request) :
    (Datum.map request.overrides).HasNames := by
  obtain ⟨parsed, -, hrequest⟩ := Except.bind_ok_iff.1 h
  obtain rfl := Except.ok.inj hrequest
  exact overridesOf_names parsed

theorem optionsFault_content {error : OptionsError} (h : error.isAboutContent = true) :
    optionsFault (.options error) = .refusal ("Error" ++ (" loading options: " ++ error.message)) := by
  have hfinding : (OptionsFileError.options error).isFinding = true := h
  unfold optionsFault
  rw [hfinding, ← String.append_assoc]
  rfl

theorem options_error {error : OptionsFileError} (hnames : (Datum.map request.overrides).HasNames)
    (hfile : request.optionsFile = none) (h : request.options machine = .error error) :
    ∃ rest, optionsFault error = .refusal ("Error" ++ rest) := by
  unfold options at h
  rw [hfile] at h
  obtain ⟨refused, hmerged, rfl⟩ := Except.mapError_error_iff.1 h
  have hcontent : refused.isAboutContent = true := by
    cases hcontent : refused.isAboutContent with
    | true => rfl
    | false => exact absurd hnames (Options.merged_error hmerged hcontent).2
  exact ⟨" loading options: " ++ refused.message, optionsFault_content hcontent⟩

theorem bytes_error {error : InputError} (h : request.bytes machine.files = .error error) :
    error.breakdown? = none ∨ error = .noFile ∧ request.input = none ∧ request.hex = false := by
  unfold bytes at h
  split at h
  · split at h
    · cases h
    · rename_i hinput hhex
      obtain rfl := Except.error.inj h
      exact .inr ⟨rfl, hinput, by simpa using hhex⟩
  · split at h
    · obtain ⟨_, -, rfl⟩ := Except.mapError_error_iff.1 h
      exact .inl rfl
    · obtain ⟨_, -, rfl⟩ := Except.mapError_error_iff.1 h
      exact .inl rfl

/-! ### Runs -/

/-- That a text is what is printed of a result. -/
def Renders (yaml : YamlLibrary) (request : DecodeRequest) (decoded : Decoded) (text : String) : Prop :=
  match request.format with
  | .json => text = Datum.Json.write (some 2) 0 (decoded.fields.plain request.verbose) ++ "\n"
  | .yaml => yaml.write (decoded.fields.plain request.verbose) = .ok text
  | .tree => text = decoded.fields.tree 0 ++ s!"\n\nBytes consumed: {decoded.consumed}\n"

/-- That a request is for some bytes, with a schema that can be had and options that are valid. -/
structure Prepares (machine : Machine) (request : DecodeRequest) (schema : Schema) (options : Options)
    (bytes : List UInt8) : Prop where
  schema : ∃ name, request.schema = some name ∧ Schema.compileFile machine.files name = .ok schema
  options : request.options machine = .ok options
  bytes : request.bytes machine.files = .ok bytes

theorem Prepares.unique {schema schema' : Schema} {options options' : Options}
    {bytes bytes' : List UInt8} (h : request.Prepares machine schema options bytes)
    (h' : request.Prepares machine schema' options' bytes') :
    schema = schema' ∧ options = options' ∧ bytes = bytes' := by
  obtain ⟨⟨name, hname, hschema⟩, hoptions, hbytes⟩ := h
  obtain ⟨⟨name', hname', hschema'⟩, hoptions', hbytes'⟩ := h'
  obtain rfl := Option.some.inj (hname.symm.trans hname')
  exact ⟨Except.ok.inj (hschema.symm.trans hschema'), Except.ok.inj (hoptions.symm.trans hoptions'),
    Except.ok.inj (hbytes.symm.trans hbytes')⟩

/-- Why a run breaks down. -/
inductive Breaks (machine : Machine) (request : DecodeRequest) : Breakdown → Prop
  | schema (hschema : request.schema = none) : Breaks machine request .noFile
  | input (hinput : request.input = none) (hhex : request.hex = false) : Breaks machine request .noFile
  | nul {name : String} {error : FileError} (hschema : request.schema = some name)
      (hread : machine.files.read (shortName name) = .error error) (hnul : error.fault = .nulInName) :
      Breaks machine request (.schema (.file (.file error)))
  | encoding {name reason : String} {content : List UInt8} (hschema : request.schema = some name)
      (hread : machine.files.read (shortName name) = .ok content)
      (htext : textOfContent content = .error reason) :
      Breaks machine request (.schema (.file (.encoding reason)))
  | limit {name : String} {error : CompileError} (hschema : request.schema = some name)
      (hexceeds : (Root.file name).Exceeds machine.files error) (hsource : error.isAboutSource = false) :
      Breaks machine request (.schema (.compile error))
  | decode {schema : Schema} {options : Options} {bytes : List UInt8} {failure : Failure}
      {encounter : Encounter} (hprepares : request.Prepares machine schema options bytes)
      (hdecode : schema.decodeBytes options bytes = .error failure)
      (hreport : failure.isReportable = false)
      (hencounter : encounter ∈ schema.encounters options (.ofBytes bytes))
      (hexceeds : encounter.Exceeds options.textEncoding.codec failure) :
      Breaks machine request (.decode failure)
  | numeral {schema : Schema} {options : Options} {bytes : List UInt8} {decoded : Decoded}
      {field : Result} (hprepares : request.Prepares machine schema options bytes)
      (hdecode : schema.decodeBytes options bytes = .ok decoded)
      (hfield : field ∈ decoded.fields.everywhere) (hnumeral : ¬ field.Writable) :
      Breaks machine request .numeralTooLong

/-- That an output is all of a decode, or only a message that says what there is no decode for. -/
inductive Reports (machine : Machine) (request : DecodeRequest) : Output → Prop
  | decoded {schema : Schema} {options : Options} {bytes : List UInt8} {decoded : Decoded}
      {stdout : String} (hprepares : request.Prepares machine schema options bytes)
      (hdecode : schema.decodeBytes options bytes = .ok decoded)
      (hrenders : request.Renders machine.yaml decoded stdout) :
      Reports machine request {
        status := 0, stdout, stderr := String.join (decoded.warnings.map warning) }
  | refused (reason : String) (hnone : ∀ schema options bytes decoded,
      request.Prepares machine schema options bytes → schema.decodeBytes options bytes ≠ .ok decoded) :
      Reports machine request { status := 1, stdout := "", stderr := "Error" ++ reason ++ "\n" }

theorem print?_some {decoded : Decoded} {stdout : String}
    (h : request.print? machine.yaml decoded = some stdout) :
    request.Renders machine.yaml decoded stdout := by
  unfold print? at h
  unfold Renders
  dsimp only at h
  cases hformat : request.format with
  | json =>
    rw [hformat] at h
    dsimp only at h
    unfold Datum.json at h
    split at h <;> cases h
    rfl
  | yaml =>
    rw [hformat] at h
    dsimp only at h ⊢
    cases hwrite : machine.yaml.write (decoded.fields.plain request.verbose) with
    | error fault =>
      rw [hwrite] at h
      cases h
    | ok text =>
      rw [hwrite] at h
      exact congrArg Except.ok (Option.some.inj h)
  | tree =>
    rw [hformat] at h
    dsimp only at h
    unfold Scope.tree? at h
    split at h <;> cases h
    rfl

theorem print?_none (hyaml : machine.yaml.WritesPlain) {decoded : Decoded}
    (hproduced : (Datum.scope decoded.fields).Produced) (h : request.print? machine.yaml decoded = none) :
    ∃ field ∈ decoded.fields.everywhere, ¬ field.Writable := by
  by_contra hall
  have hwritable : ∀ field ∈ decoded.fields.everywhere, field.Writable :=
    fun field hfield => by_contra fun hnot => hall ⟨field, hfield, hnot⟩
  unfold print? at h
  dsimp only at h
  cases hformat : request.format with
  | json =>
    rw [hformat, Scope.json_plain hproduced hwritable] at h
    cases h
  | yaml =>
    obtain ⟨text, hwrite⟩ := hyaml.written (Scope.formFault?_plain hproduced hwritable request.verbose)
    rw [hformat, hwrite] at h
    cases h
  | tree =>
    rw [hformat, Scope.tree?_eq hproduced hwritable] at h
    cases h

theorem compile_breaks {name : String} {error : SchemaFileError} (hschema : request.schema = some name)
    (h : Schema.compileFile machine.files name = .error error) (hfinding : error.isFinding = false) :
    request.Breaks machine (.schema error) := by
  rcases Schema.compileFile_error h hfinding with ⟨refused, rfl, htext⟩ | ⟨refused, rfl, hexceeds⟩
  · unfold FileSystem.readText at htext
    rcases Except.bind_error_iff.1 htext with hread | ⟨content, hread, htext⟩
    · obtain ⟨fault, hfault, rfl⟩ := Except.mapError_error_iff.1 hread
      exact .nul hschema hfault (FileError.nul_of_not_isAboutFile hfinding)
    · obtain ⟨reason, hreason, rfl⟩ := Except.mapError_error_iff.1 htext
      exact .encoding hschema (Except.mapError_ok_iff.1 hread) hreason
  · exact .limit hschema hexceeds hfinding

section

variable {schema : Schema} {options : Options} {name : String}

theorem runWith_eq {bytes : List UInt8} (hbytes : request.bytes machine.files = .ok bytes) :
    request.runWith machine options schema =
      let input := request.input.getD "[]"
      match schema.decodeBytes options bytes with
      | .error failure =>
        if failure.isReportable then .refusal s!"Error decoding {input}: {failure.message}"
        else .broken (.decode failure)
      | .ok decoded =>
        match request.print? machine.yaml decoded with
        | some stdout => { stdout, stderr := String.join (decoded.warnings.map warning) }
        | none => .broken .numeralTooLong := by
  have hdecode : request.decode machine.files schema options
      = (schema.decodeBytes options bytes).mapError .decode := by
    unfold decode
    rw [hbytes]
    rfl
  unfold runWith
  rw [hdecode]
  cases schema.decodeBytes options bytes with
  | ok decoded => rfl
  | error failure =>
    show ((InputError.decode failure).breakdown?.map _).getD _ = _
    unfold InputError.breakdown?
    dsimp only
    split <;> rfl

theorem runWith_of_error {error : InputError} (hbytes : request.bytes machine.files = .error error) :
    request.runWith machine options schema =
      let input := request.input.getD "[]"
      (error.breakdown?.map (Output.broken ·)).getD
        (.refusal s!"Error decoding {input}: {error.message}") := by
  unfold runWith decode
  rw [hbytes]
  rfl

theorem decoding_message (input message : String) :
    s!"Error decoding {input}: {message}" = "Error" ++ (" decoding " ++ input ++ ": " ++ message) := by
  rw [← String.append_assoc, ← String.append_assoc, ← String.append_assoc]
  rfl

theorem compiling_message (message : String) :
    s!"Error compiling schema: {message}" = "Error" ++ (" compiling schema: " ++ message) := by
  rw [← String.append_assoc]
  rfl

/-- With a schema and options, the output is of the decode, or of what is wrong with it. -/
theorem runWith_reports (hyaml : machine.yaml.WritesPlain) (hschema : request.schema = some name)
    (hcompile : Schema.compileFile machine.files name = .ok schema)
    (hoptions : request.options machine = .ok options)
    (hends : ∀ bytes, request.bytes machine.files = .ok bytes →
      schema.decodeBytes options bytes ≠ .error .endless) :
    request.Reports machine (request.runWith machine options schema) ∨
      ∃ fault, request.runWith machine options schema = .broken fault ∧ request.Breaks machine fault := by
  cases hbytes : request.bytes machine.files with
  | error error =>
    rw [runWith_of_error hbytes]
    dsimp only
    rcases bytes_error hbytes with hreport | ⟨rfl, hinput, hhex⟩
    · rw [hreport, decoding_message]
      refine .inl (.refused _ fun _ _ _ _ hprepares => ?_)
      cases hbytes.symm.trans hprepares.bytes
    · exact .inr ⟨_, rfl, .input hinput hhex⟩
  | ok bytes =>
    have hprepares : request.Prepares machine schema options bytes :=
      ⟨⟨name, hschema, hcompile⟩, hoptions, hbytes⟩
    rw [runWith_eq hbytes]
    cases hdecode : schema.decodeBytes options bytes with
    | error failure =>
      dsimp only
      split
      · rw [decoding_message]
        refine .inl (.refused _ fun _ _ _ _ hother => ?_)
        obtain ⟨rfl, rfl, rfl⟩ := hprepares.unique hother
        exact fun hdecoded => nomatch hdecode.symm.trans hdecoded
      · rename_i hreport
        have hends : failure ≠ .endless := fun heq => hends bytes hbytes (heq ▸ hdecode)
        have hreport : failure.isReportable = false := by simpa using hreport
        obtain ⟨encounter, hencounter, hexceeds⟩ := Schema.decodeBytes_error hdecode hends hreport
        exact .inr ⟨_, rfl, .decode hprepares hdecode hreport hencounter hexceeds⟩
    | ok decoded =>
      dsimp only
      cases hprint : request.print? machine.yaml decoded with
      | some stdout =>
        exact .inl (.decoded hprepares hdecode (print?_some hprint))
      | none =>
        obtain ⟨field, hfield, hnumeral⟩ := print?_none hyaml (Schema.decodeBytes_produced hdecode) hprint
        exact .inr ⟨_, rfl, .numeral hprepares hdecode hfield hnumeral⟩

end

/-- A run reports, or one of the known causes breaks it down. -/
theorem run_reports (hyaml : machine.yaml.WritesPlain)
    (hnames : (Datum.map request.overrides).HasNames)
    (hfile : request.optionsFile = none)
    (hends : ∀ schema options bytes, request.Prepares machine schema options bytes →
      schema.decodeBytes options bytes ≠ .error .endless) :
    request.Reports machine (request.run machine) ∨
      ∃ fault, request.run machine = .broken fault ∧ request.Breaks machine fault := by
  unfold run
  cases hoptions : request.options machine with
  | error error =>
    obtain ⟨reason, hreason⟩ := options_error hnames hfile hoptions
    dsimp only
    rw [hreason]
    refine .inl (.refused _ fun _ _ _ _ hprepares => ?_)
    cases hoptions.symm.trans hprepares.options
  | ok options =>
    cases hschema : request.schema with
    | none => exact .inr ⟨_, rfl, .schema hschema⟩
    | some name =>
      dsimp only
      cases hcompile : Schema.compileFile machine.files name with
      | ok schema =>
        refine runWith_reports hyaml hschema hcompile hoptions fun bytes hbytes => ?_
        exact hends schema options bytes ⟨⟨name, hschema, hcompile⟩, hoptions, hbytes⟩
      | error error =>
        dsimp only
        split
        · rw [compiling_message]
          refine .inl (.refused _ fun _ _ _ _ hprepares => ?_)
          obtain ⟨other, hother, hcompiled⟩ := hprepares.schema
          obtain rfl := Option.some.inj (hschema.symm.trans hother)
          cases hcompile.symm.trans hcompiled
        · rename_i hfinding
          exact .inr ⟨_, rfl, compile_breaks hschema hcompile (by simpa using hfinding)⟩

end Command.DecodeRequest

namespace Command

/-- The command prints all of a decode or an error message alone, where its options are from flags and
decoding ends; or it is given something that is beyond a limit, or a schema that is no text. -/
theorem decode_reports_or_breaks (machine : Machine) (hyaml : machine.yaml.WritesPlain)
    {arguments : List String} {request : DecodeRequest}
    (hrequest : DecodeRequest.ofArguments arguments = .ok request) (hfile : request.optionsFile = none)
    (hends : ∀ schema options bytes, request.Prepares machine schema options bytes →
      schema.decodeBytes options bytes ≠ .error .endless) :
    request.Reports machine (decode machine arguments) ∨
      ∃ fault, decode machine arguments = .broken fault ∧ request.Breaks machine fault := by
  unfold decode
  rw [hrequest]
  exact DecodeRequest.run_reports hyaml (DecodeRequest.ofArguments_names hrequest) hfile hends

def DecodeRequest.level : DecodeRequest where
  schema := some "level"
  input := some "05"
  hex := true
  format := .tree

/-- The command line of the request. -/
def levelArguments : List String := ["level", "05", "--hex", "--format", "tree"]

theorem ofArguments_level : DecodeRequest.ofArguments levelArguments = .ok .level := by
  cbv

theorem decode_reports_or_breaks_level :
    Machine.level.yaml.WritesPlain ∧ DecodeRequest.ofArguments levelArguments = .ok .level ∧
      DecodeRequest.level.optionsFile = none ∧
      (∀ schema options bytes, DecodeRequest.level.Prepares .level schema options bytes →
        schema.decodeBytes options bytes ≠ .error .endless) ∧
      (DecodeRequest.level.Reports .level (decode .level levelArguments) ∨
        ∃ fault, decode .level levelArguments = .broken fault ∧
          DecodeRequest.level.Breaks .level fault) := by
  have hends : ∀ schema options bytes, DecodeRequest.level.Prepares .level schema options bytes →
      schema.decodeBytes options bytes ≠ .error .endless := by
    intro schema options bytes hprepares
    obtain ⟨name, hname, hcompile⟩ := hprepares.schema
    obtain rfl := Option.some.inj hname
    obtain rfl := Except.ok.inj (Schema.compileFile_level.symm.trans hcompile)
    exact Schema.level_ends options bytes
  exact ⟨YamlLibrary.block_writesPlain, ofArguments_level, rfl, hends,
    decode_reports_or_breaks .level YamlLibrary.block_writesPlain ofArguments_level rfl hends⟩

/-- A machine with a file that has a byte that no character begins with. -/
def noText : Machine :=
  .ofFiles { files := [(["level"], [0xff])] }

/-- A schema that is no text is not reported, though it has nothing to be decoded with. -/
theorem decode_breaks_on_schema_without_text :
    let reason := "'utf-8' codec can't decode byte 0xff in position 0: invalid start byte"
    DecodeRequest.ofArguments levelArguments = .ok .level ∧ DecodeRequest.level.optionsFile = none ∧
      (∀ schema, Schema.compileFile noText.files "level" ≠ .ok schema) ∧
      decode noText levelArguments = .broken (.schema (.file (.encoding reason))) := by
  intro reason
  have htext : (Root.file "level").readText noText.files = .error (.encoding reason) := by
    decide +kernel
  have hcompile : Schema.compileFile noText.files "level" = .error (.file (.encoding reason)) :=
    Root.compile_of_error htext
  have hoptions : DecodeRequest.level.options noText = .ok {} := by
    have hlegible : Options.Legible .listed {} := Options.legible_ascii rfl
    unfold DecodeRequest.options
    show (Options.merged .listed {} (.map [])).mapError _ = _
    rw [Options.merged_nothing hlegible]
    rfl
  refine ⟨ofArguments_level, rfl, ?_, ?_⟩
  · intro schema hschema
    cases hcompile.symm.trans hschema
  · unfold decode
    rw [ofArguments_level]
    dsimp only
    unfold DecodeRequest.run
    rw [hoptions]
    dsimp only [DecodeRequest.level]
    rw [hcompile]
    rfl

end Command

end BinarySchema
