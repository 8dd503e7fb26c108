import BinarySchema.Proofs.Decode.Curtailed

/-!
# Limits of iterations

A limit of iterations, in comparison with a higher one or none, only makes a decode fail where a loop
reaches it; everything else is decoded alike. An iteration takes a byte, so a loop that has as many
iterations behind it as there were bytes has nothing left to read, and to enter it once more is a failure
with any limit. A limit as high as the number of unread bytes therefore refuses no decode that would have
come to a result without it.
-/

namespace BinarySchema

/-- A decode is cut short by a loop that reaches the limit. If there are no more bytes than the limit
allows iterations, the decode would have failed without it too. -/
def Cut.reachedLimit (limit : LoopLimit) (source : Source) : Cut where
  bytes := source.unread
  calm _ := True
  stops failure other _ :=
    (∃ error, failure = .decode error ∧ error.fault = .loopLimit limit.val) ∧
      (source.unread ≤ limit.val → other ≠ none)
  stops_behind := by
    rintro failure other warnings more ⟨hfails, hmeant⟩ -
    exact ⟨hfails, fun hfew => absurd rfl (hmeant hfew)⟩

theorem Cut.reachedLimit_limits {limit : LoopLimit} {other : Option LoopLimit} {source : Source}
    (hbelow : ∀ more ∈ other, limit.val ≤ more.val) :
    Cut.Limits (.reachedLimit limit source) limit other where
  below := hbelow
  stops {iteration unread _ _ _ _} hreached hbytes hexhausted := by
    refine ⟨⟨_, rfl, rfl⟩, fun hfew => hexhausted ?_⟩
    have hsum : iteration + unread ≤ source.unread := hbytes
    omega

namespace Decoder

theorem tightens_limit (types : TypeTable) (options : Options) (source : Source) {limit : LoopLimit}
    {other : Option LoopLimit} (hbelow : ∀ more ∈ other, limit.val ≤ more.val) :
    Tightens (.reachedLimit limit source) ⟨types, { options with maxLoopIterations := some limit }⟩
      ⟨types, { options with maxLoopIterations := other }⟩ where
  types := rfl
  bytes type bytes := by cases type <;> rfl
  encoding := rfl
  listed type name raw offset := by
    unfold checkListed
    refine .ite (.ite (.throw _) ?_) (.pure ())
    exact ⟨fun hr => .inl ⟨rfl, trivial, hr.unread⟩, ⟨fun _ => ⟨[_], rfl⟩⟩⟩
  limit := .inr ⟨limit, rfl, Cut.reachedLimit_limits hbelow⟩

end Decoder

theorem Schema.decode_reachedLimit (schema : Schema) (options : Options) (source : Source)
    (limit : LoopLimit) (other : Option LoopLimit) (hbelow : ∀ more ∈ other, limit.val ≤ more.val) :
    Decoder.Curtails (.reachedLimit limit source)
      (schema.decode { options with maxLoopIterations := some limit } source)
      (schema.decode { options with maxLoopIterations := other } source) :=
  Schema.decode_curtailed (Decoder.tightens_limit schema.types options source hbelow)
    ⟨trivial, Nat.le_refl _⟩

/-- A limit of iterations gives the outcome that a higher one or none gives, unless a loop exceeds it,
and one that is not below the number of unread bytes refuses no decode that would come to a result. -/
theorem loopLimit_only_cuts (schema : Schema) (options : Options) (source : Source)
    (limit : LoopLimit) (other : Option LoopLimit) (hbelow : ∀ more ∈ other, limit.val ≤ more.val) :
    (schema.decode { options with maxLoopIterations := some limit } source
        = schema.decode { options with maxLoopIterations := other } source ∨
      ∃ error reading,
        schema.decode { options with maxLoopIterations := some limit } source
            = .error (.decode error) reading ∧
          error.reason = s!"Loop exceeded {limit.val} iterations") ∧
    (source.unread ≤ limit.val →
      ((∃ decoded reading,
          schema.decode { options with maxLoopIterations := some limit } source
            = .ok decoded reading) ↔
        ∃ decoded reading,
          schema.decode { options with maxLoopIterations := none } source
            = .ok decoded reading)) := by
  constructor
  · rcases schema.decode_reachedLimit options source limit other hbelow with
      ⟨hsame, -⟩ | ⟨_, stopped, hfails, hstops⟩
    · exact .inl hsame
    · obtain ⟨⟨error, rfl, hfault⟩, -⟩ := hstops
      refine .inr ⟨error, stopped, hfails, ?_⟩
      unfold DecodeError.reason
      rw [hfault]
      rfl
  · intro hfew
    rcases schema.decode_reachedLimit options source limit none nofun with
      ⟨hsame, -⟩ | ⟨_, stopped, hfails, hstops⟩
    · rw [hsame]
    · -- The limit is met where the decode could not have gone on without it.
      have hmeant := hstops.2 hfew
      constructor
      · rintro ⟨decoded, reading, hrun⟩
        rw [hfails] at hrun
        cases hrun
      · rintro ⟨decoded, reading, hrun⟩
        rw [hrun] at hmeant
        exact absurd rfl hmeant

def Schema.numbers : Schema where
  types := { frozen := true }
  root := some [.block ⟨⟨true, true⟩, ⟨[⟨.probe, "@eof", ⟨1, 17⟩⟩], ⟨1, 17⟩⟩, ⟨1, 10⟩⟩
    [.field { name := "x", type := .primitive .byte, pos := ⟨1, 25⟩ }]]

/-- Three numbers are within a limit of three iterations, and not within one of two. -/
theorem loopLimit_only_cuts_numbers :
    (∃ decoded reading,
      Schema.numbers.decode { maxLoopIterations := some ⟨3, by decide⟩ } (.ofBytes [7, 8, 9])
        = .ok decoded reading) ∧
    ∃ error reading,
      Schema.numbers.decode { maxLoopIterations := some ⟨2, by decide⟩ } (.ofBytes [7, 8, 9])
          = .error (.decode error) reading ∧
        error.reason = "Loop exceeded 2 iterations" := by
  have huncapped : Schema.numbers.consumed? {} (.ofBytes [7, 8, 9]) = some 3 := by decide +kernel
  obtain ⟨decoded, reading, hrun, -⟩ := Schema.decode_of_consumed? huncapped
  constructor
  · have h := loopLimit_only_cuts Schema.numbers {} (.ofBytes [7, 8, 9]) ⟨3, by decide⟩ none nofun
    exact (h.2 (by decide)).2 ⟨decoded, reading, hrun⟩
  · have hbelow : ∀ more ∈ (some ⟨5, by decide⟩ : Option LoopLimit), 2 ≤ more.val := by
      intro more hmore
      cases hmore
      decide
    have h := loopLimit_only_cuts Schema.numbers {} (.ofBytes [7, 8, 9]) ⟨2, by decide⟩ _ hbelow
    rcases h.1 with hsame | hfails
    · have hcounts : Schema.numbers.consumed? { maxLoopIterations := some ⟨2, by decide⟩ }
          (.ofBytes [7, 8, 9]) = Schema.numbers.consumed?
            { maxLoopIterations := some ⟨5, by decide⟩ } (.ofBytes [7, 8, 9]) := by
        unfold Schema.consumed?
        rw [hsame]
      exact absurd hcounts (by decide +kernel)
    · exact hfails

end BinarySchema
