import BinarySchema.Proofs.Decode.Curtailed

/-!
# Strict enums

A decode with strict enums refuses the first value that the same decode without them would warn of, and
does not differ from it before. So it comes to a result exactly where the lenient one does so without a
warning, and to the same one; and where the lenient one warns of anything, the strict one fails with the
first of these warnings, even if the lenient one fails later on.
-/

namespace BinarySchema

/-- The warnings that a decode has given where it ends, with a result or without one. -/
def Schema.warnings (schema : Schema) (options : Options) (source : Source) : List UnlistedValue :=
  (Decoder.reached (schema.decode options source)).warnings

theorem Schema.warnings_of_ok {schema : Schema} {options : Options} {source : Source}
    {decoded : Decoded} {reading : Reading}
    (h : schema.decode options source = .ok decoded reading) :
    schema.warnings options source = decoded.warnings := by
  cases hroot : schema.root with
  | none => simp [decode, hroot] at h
  | some body =>
    obtain ⟨-, -, hwarnings⟩ :=
      (Decoder.consumes_accumulates _).decode hroot (fun _ _ => trivial) h
    unfold warnings
    rw [h, hwarnings]
    rfl

/-- A decode is cut short by the first value that it would have to warn of. -/
def Cut.firstWarning (source : Source) : Cut where
  bytes := source.unread
  calm warnings := warnings = []
  stops failure _ warnings := ∃ first rest error,
    warnings = first :: rest ∧ failure = .decode error ∧ error.fault = .unlisted first
  stops_behind := by
    rintro failure other warnings more ⟨first, rest, error, rfl, hfailure, hfault⟩ ⟨behind, rfl⟩
    exact ⟨first, rest ++ behind, error, rfl, hfailure, hfault⟩

namespace Decoder

theorem checkListed_strict {types : TypeTable} {options : Options} {source : Source} (type : EnumDef)
    (name : String) (raw : Int) (offset : Nat) :
    Cuts (.firstWarning source)
      (checkListed ⟨types, { options with strictEnums := true }⟩ type name raw offset)
      (checkListed ⟨types, { options with strictEnums := false }⟩ type name raw offset) := by
  by_cases hlisted : (type.memberFor? raw).isNone
  · unfold checkListed
    rw [if_pos hlisted, if_pos hlisted, if_pos rfl, if_neg Bool.false_ne_true]
    refine ⟨fun {r} hr => ?_, ⟨fun r => ⟨[_], rfl⟩⟩⟩
    -- Nothing was warned of before, so this warning is the first one.
    have hcalm : r.warnings = [] := hr.calm
    refine .inr ⟨_, r, rfl, ⟨name, raw, type.name⟩, [], _, ?_, rfl, rfl⟩
    change r.warnings ++ [_] = _
    rw [hcalm]
    rfl
  · unfold checkListed
    rw [if_neg hlisted, if_neg hlisted]
    exact .pure ()

theorem tightens_strict (types : TypeTable) (options : Options) (source : Source) :
    Tightens (.firstWarning source) ⟨types, { options with strictEnums := true }⟩
      ⟨types, { options with strictEnums := false }⟩ where
  types := rfl
  bytes type bytes := by cases type <;> rfl
  encoding := rfl
  listed := checkListed_strict
  limit := .inl rfl

end Decoder

theorem Schema.decode_firstWarning (schema : Schema) (options : Options) (source : Source) :
    Decoder.Curtails (.firstWarning source)
      (schema.decode { options with strictEnums := true } source)
      (schema.decode { options with strictEnums := false } source) :=
  Schema.decode_curtailed (Decoder.tightens_strict schema.types options source) ⟨rfl, Nat.le_refl _⟩

/-- Strict enums only refuse, and refuse exactly what is warned of without them: a lenient decode without
warnings is also the strict one, every result of a strict decode is that of a lenient one without
warnings, and behind the first warning of a lenient decode the strict one has failed with it. -/
theorem strictEnums_refuses_warned (schema : Schema) (options : Options) (source : Source) :
    (∀ decoded reading,
      schema.decode { options with strictEnums := false } source = .ok decoded reading →
        decoded.warnings = [] →
          schema.decode { options with strictEnums := true } source = .ok decoded reading) ∧
    (∀ decoded reading,
      schema.decode { options with strictEnums := true } source = .ok decoded reading →
        schema.decode { options with strictEnums := false } source = .ok decoded reading ∧
          decoded.warnings = []) ∧
    (∀ first rest, schema.warnings { options with strictEnums := false } source = first :: rest →
      ∃ error reading,
        schema.decode { options with strictEnums := true } source = .error (.decode error) reading ∧
          error.reason = first.message) := by
  rcases schema.decode_firstWarning options source with
    ⟨hsame, hcovers⟩ | ⟨failure, stopped, hfails, hstops⟩
  · -- Both decodes are the same one, and there are no warnings.
    have hcalm : schema.warnings { options with strictEnums := false } source = [] := hcovers.calm
    refine ⟨fun decoded reading hrun _ => hsame.trans hrun, fun decoded reading hrun => ?_, ?_⟩
    · have hlenient := hsame.symm.trans hrun
      exact ⟨hlenient, (Schema.warnings_of_ok hlenient).symm.trans hcalm⟩
    · intro first rest hwarnings
      rw [hcalm] at hwarnings
      cases hwarnings
  · obtain ⟨first, rest, error, hfirst, rfl, hfault⟩ := hstops
    refine ⟨fun decoded reading hrun hcalm => ?_, fun decoded reading hrun => ?_, ?_⟩
    · have hwarnings := (Schema.warnings_of_ok hrun).symm.trans hfirst
      rw [hcalm] at hwarnings
      cases hwarnings
    · rw [hfails] at hrun
      cases hrun
    · intro another others hwarnings
      obtain ⟨rfl, -⟩ := List.cons.inj (hwarnings.symm.trans hfirst)
      refine ⟨error, stopped, hfails, ?_⟩
      unfold DecodeError.reason
      rw [hfault]
      rfl

/-- Three values of an enum, and a number behind them. -/
def Schema.levels : Schema where
  types := {
    definitions := [.enum ⟨"Level", .byte, [⟨"Low", 1⟩, ⟨"High", 2⟩], ⟨1, 1⟩⟩]
    frozen := true }
  root := some [
    .field { name := "x", type := .named .enum "Level", pos := ⟨2, 10⟩
             length := some ⟨[⟨.number 3, "3", ⟨2, 20⟩⟩], ⟨2, 20⟩⟩ },
    .field { name := "y", type := .primitive .ushort, pos := ⟨2, 24⟩ }]

/-- The lenient decode warns of two values and then fails, because there are no bytes for the number. -/
theorem strictEnums_refuses_warned_levels :
    Schema.levels.warnings {} (.ofBytes [2, 9, 7]) = [⟨"x[1]", 9, "Level"⟩, ⟨"x[2]", 7, "Level"⟩] ∧
      ∃ error reading,
        Schema.levels.decode { strictEnums := true } (.ofBytes [2, 9, 7])
            = .error (.decode error) reading ∧
          error.reason = "x[1]: value 9 is not a member of enum Level" := by
  have hwarnings : Schema.levels.warnings {} (.ofBytes [2, 9, 7])
      = [⟨"x[1]", 9, "Level"⟩, ⟨"x[2]", 7, "Level"⟩] := by
    decide +kernel
  obtain ⟨error, reading, hfails, hreason⟩ :=
    (strictEnums_refuses_warned Schema.levels {} (.ofBytes [2, 9, 7])).2.2 _ _ hwarnings
  refine ⟨hwarnings, error, reading, hfails, hreason.trans ?_⟩
  decide +kernel

end BinarySchema
