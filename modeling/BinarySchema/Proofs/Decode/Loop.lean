import BinarySchema.Proofs.Decode.Accumulation

/-!
# Iterations of a loop

A loop is its iterations. `Turn` is what one of them does before it is asked whether it consumed
anything, and `Iterates` is a number of them that all did. A loop runs from its beginning exactly as it
runs from where any such iterations lead, so whatever a loop does in the middle is a statement about
`Iterates` and at most one `Turn` behind it.

Each complete iteration takes a byte. So there are no more of them than there were unread bytes, and the
bound on the steps of a loop is never met. A loop that fails does so behind complete iterations, where it
asks its condition, meets its limit, runs its body, adds the results, or has not moved: `LoopFailure` lists
these ways, and `loop_error_iff` says that there are no others.
-/

namespace BinarySchema

namespace Source

theorem Consumes.unread {before after : Source} {bytes : List UInt8}
    (h : before.Consumes bytes after) : before.unread = bytes.length + after.unread := by
  rw [before.unread_eq, after.unread_eq, h.rest, List.length_append]

theorem unread_le_of_consumes {before after : Source}
    (h : ∃ bytes, before.Consumes bytes after) : after.unread ≤ before.unread := by
  obtain ⟨bytes, hconsumes⟩ := h
  rw [hconsumes.unread]
  omega

end Source

namespace Decoder

variable {α β : Type} {context : DecodeContext} {head : BlockHead}
  {body : List Scope → Decoder Scope} {outer : List Scope} {r s : Reading}

theorem bind_congr_at {x y : Decoder α} {f g : α → Decoder β} (hfirst : x r = y r)
    (hrest : ∀ a s, x r = .ok a s → f a s = g a s) : (x >>= f) r = (y >>= g) r := by
  change EStateM.bind x f r = EStateM.bind y g r
  unfold EStateM.bind
  rw [← hfirst]
  cases hx : x r with
  | ok a s => exact hrest a s hx
  | error e s => rfl

/-- That a decoder of bodies takes bytes from its source and leaves the rest as it is. -/
def Forward (body : List Scope → Decoder Scope) : Prop :=
  ∀ scopes r fields s, body scopes r = .ok fields s → ∃ bytes, r.source.Consumes bytes s.source

theorem Forward.unread_lt (h : Forward body) {scopes : List Scope} {fields : Scope}
    (hrun : body scopes r = .ok fields s) (hmoved : s.source.position ≠ r.source.position) :
    s.source.unread < r.source.unread := by
  obtain ⟨bytes, hconsumes⟩ := h _ _ _ _ hrun
  have hposition := hconsumes.position
  rw [hconsumes.unread]
  omega

/-! ### One iteration -/

/-- An iteration up to the question whether it consumed anything: the loop is entered and its limit not
reached, the body adds fields to its own scope, and these join the scope around it under the number of
the iteration. -/
structure Turn (context : DecodeContext) (head : BlockHead) (body : List Scope → Decoder Scope)
    (outer : List Scope) (iteration : Nat) (visible : List Scope) (scope : Scope) (r : Reading)
    (fields joined : Scope) (s : Reading) : Prop where
  enters : entered context head (visible ++ scope :: outer) r = .ok true r
  within : checkLimit context head iteration r.source.position r = .ok () r
  run : body (scope :: outer) r = .ok fields s
  joins : addAll scope (fields.map fun x => x.rename (indexedName x.name iteration)) s
    = .ok joined s

section

variable {steps iteration : Nat} {visible : List Scope} {scope fields joined : Scope}

theorem Turn.loop_succ (h : Turn context head body outer iteration visible scope r fields joined s) :
    loop context head body outer (steps + 1) iteration visible scope r
      = (do
        checkProgress head r.source.position
        loop context head body outer steps (iteration + 1) [fields] joined : Decoder Scope) s := by
  rw [Decoder.loop_succ, bind_of_ok h.enters, if_pos rfl, position_bind, bind_of_ok h.within,
    bind_of_ok h.run, bind_of_ok h.joins]

theorem Turn.loop_moved
    (h : Turn context head body outer iteration visible scope r fields joined s)
    (hmoved : s.source.position ≠ r.source.position) :
    loop context head body outer (steps + 1) iteration visible scope r
      = loop context head body outer steps (iteration + 1) [fields] joined s := by
  have hprogress : checkProgress head r.source.position s = .ok () s := by
    unfold checkProgress
    rw [position_bind, if_neg hmoved]
    rfl
  rw [h.loop_succ, bind_of_ok hprogress]

theorem Turn.loop_unmoved
    (h : Turn context head body outer iteration visible scope r fields joined s)
    (hunmoved : s.source.position = r.source.position) :
    loop context head body outer (steps + 1) iteration visible scope r
      = .error (.decode ⟨.noProgress, some head.label, some s.source.position⟩) s := by
  rw [h.loop_succ, bind_error_iff]
  left
  unfold checkProgress
  rw [position_bind, if_pos hunmoved, hunmoved]
  rfl

end

/-! ### Many iterations -/

/-- A number of iterations that each consumed something, from the beginning of a loop to a scope that
the condition sees, a scope around it and a reading. -/
inductive Iterates (context : DecodeContext) (head : BlockHead) (body : List Scope → Decoder Scope)
    (outer : List Scope) (scope : Scope) (r : Reading) :
    Nat → List Scope → Scope → Reading → Prop
  | start : Iterates context head body outer scope r 0 [] scope r
  | next {n : Nat} {visible : List Scope} {current fields joined : Scope} {s t : Reading}
      (before : Iterates context head body outer scope r n visible current s)
      (turn : Turn context head body outer n visible current s fields joined t)
      (moved : t.source.position ≠ s.source.position) :
      Iterates context head body outer scope r (n + 1) [fields] joined t

namespace Iterates

variable {n : Nat} {visible : List Scope} {scope current : Scope}

theorem loop_eq (h : Iterates context head body outer scope r n visible current s) (steps : Nat) :
    loop context head body outer (n + steps) 0 [] scope r
      = loop context head body outer steps n visible current s := by
  induction h generalizing steps with
  | start => rw [Nat.zero_add]
  | next before turn moved ih =>
    rw [Nat.add_assoc, Nat.add_comm 1 steps, ih, turn.loop_moved moved]

/-- Every iteration takes a byte from the unread ones. -/
theorem unread (h : Iterates context head body outer scope r n visible current s)
    (hbody : Forward body) : n + s.source.unread ≤ r.source.unread := by
  induction h with
  | start => rw [Nat.zero_add]
  | next before turn moved ih =>
    have htaken := hbody.unread_lt turn.run moved
    omega

end Iterates

/-! ### Enough steps -/

/-- Two decoders of bodies that agree wherever no more than some number of bytes is unread make loops
that agree there, with any numbers of steps that are larger than the unread bytes. -/
theorem loop_agree {other : List Scope → Decoder Scope} {bound : Nat} (hbody : Forward body)
    (hagree : ∀ scopes r, r.source.unread ≤ bound → body scopes r = other scopes r)
    {steps more iteration : Nat} {visible : List Scope} {scope : Scope}
    (hbound : r.source.unread ≤ bound) (hsteps : r.source.unread < steps)
    (hmore : r.source.unread < more) :
    loop context head body outer steps iteration visible scope r
      = loop context head other outer more iteration visible scope r := by
  induction steps generalizing more iteration visible scope r with
  | zero => omega
  | succ steps ih =>
    obtain ⟨more, rfl⟩ : ∃ fewer, more = fewer + 1 := ⟨more - 1, by omega⟩
    rw [loop_succ, loop_succ]
    refine bind_congr_at rfl fun enters r₁ henters => ?_
    obtain rfl := entered_ok henters
    cases enters with
    | false => rfl
    | true =>
      rw [if_pos rfl, if_pos rfl, position_bind, position_bind]
      refine bind_congr_at rfl fun _ r₂ hlimit => ?_
      obtain rfl := checkLimit_ok hlimit
      refine bind_congr_at (hagree _ _ hbound) fun fields s hrun => ?_
      refine bind_congr_at rfl fun joined s₁ hjoins => ?_
      obtain ⟨-, rfl⟩ := addAll_ok hjoins
      refine bind_congr_at rfl fun _ s₂ hprogress => ?_
      -- The next iteration has fewer bytes in front of it, and one step less is still enough.
      obtain ⟨rfl, hmoved⟩ := checkProgress_ok hprogress
      have htaken := hbody.unread_lt hrun hmoved
      exact ih (by omega) (by omega) (by omega)

/-! ### Failures -/

inductive LoopFailure (context : DecodeContext) (head : BlockHead) (body : List Scope → Decoder Scope)
    (outer : List Scope) (iteration : Nat) (visible : List Scope) (scope : Scope) (r : Reading) :
    Failure → Reading → Prop
  | condition {failure : Failure} {t : Reading}
      (fails : entered context head (visible ++ scope :: outer) r = .error failure t) :
      LoopFailure context head body outer iteration visible scope r failure t
  | limit {failure : Failure} {t : Reading}
      (enters : entered context head (visible ++ scope :: outer) r = .ok true r)
      (fails : checkLimit context head iteration r.source.position r = .error failure t) :
      LoopFailure context head body outer iteration visible scope r failure t
  | body {failure : Failure} {t : Reading}
      (enters : entered context head (visible ++ scope :: outer) r = .ok true r)
      (within : checkLimit context head iteration r.source.position r = .ok () r)
      (fails : body (scope :: outer) r = .error failure t) :
      LoopFailure context head body outer iteration visible scope r failure t
  | joining {fields : Scope} {s t : Reading} {failure : Failure}
      (enters : entered context head (visible ++ scope :: outer) r = .ok true r)
      (within : checkLimit context head iteration r.source.position r = .ok () r)
      (run : body (scope :: outer) r = .ok fields s)
      (fails : addAll scope (fields.map fun x => x.rename (indexedName x.name iteration)) s
        = .error failure t) :
      LoopFailure context head body outer iteration visible scope r failure t
  | progress {fields joined : Scope} {s : Reading}
      (turn : Turn context head body outer iteration visible scope r fields joined s)
      (unmoved : s.source.position = r.source.position) :
      LoopFailure context head body outer iteration visible scope r
        (.decode ⟨.noProgress, some head.label, some s.source.position⟩) s

theorem LoopFailure.loop_error {iteration : Nat} {visible : List Scope} {scope : Scope}
    {failure : Failure} (h : LoopFailure context head body outer iteration visible scope r failure s)
    (steps : Nat) :
    loop context head body outer (steps + 1) iteration visible scope r = .error failure s := by
  cases h with
  | condition fails =>
    rw [loop_succ]
    exact bind_of_error fails
  | limit enters fails =>
    rw [loop_succ, bind_of_ok enters, if_pos rfl, position_bind]
    exact bind_of_error fails
  | body enters within fails =>
    rw [loop_succ, bind_of_ok enters, if_pos rfl, position_bind, bind_of_ok within]
    exact bind_of_error fails
  | joining enters within run fails =>
    rw [loop_succ, bind_of_ok enters, if_pos rfl, position_bind, bind_of_ok within, bind_of_ok run]
    exact bind_of_error fails
  | progress turn unmoved => exact turn.loop_unmoved unmoved

/-- A failing loop fails in an iteration of its own, or behind one that moved. -/
theorem loop_error_cases {steps iteration : Nat} {visible : List Scope} {scope : Scope}
    {failure : Failure}
    (h : loop context head body outer (steps + 1) iteration visible scope r = .error failure s) :
    LoopFailure context head body outer iteration visible scope r failure s ∨
      ∃ fields joined t, Turn context head body outer iteration visible scope r fields joined t ∧
        t.source.position ≠ r.source.position ∧
        loop context head body outer steps (iteration + 1) [fields] joined t = .error failure s := by
  have hrun := h
  rw [loop_succ] at h
  rcases bind_error_iff.1 h with hcondition | ⟨enters, r₁, henters, h⟩
  · exact .inl (.condition hcondition)
  obtain rfl := entered_ok henters
  cases enters with
  | false => cases h
  | true =>
    rw [if_pos rfl, position_bind] at h
    rcases bind_error_iff.1 h with hlimit | ⟨_, r₂, hwithin, h⟩
    · exact .inl (.limit henters hlimit)
    obtain rfl := checkLimit_ok hwithin
    rcases bind_error_iff.1 h with hbody | ⟨fields, t, hfields, h⟩
    · exact .inl (.body henters hwithin hbody)
    rcases bind_error_iff.1 h with hjoining | ⟨joined, t₁, hjoins, -⟩
    · exact .inl (.joining henters hwithin hfields hjoining)
    obtain ⟨-, rfl⟩ := addAll_ok hjoins
    have hturn : Turn context head body outer iteration visible scope r₂ fields joined t₁ :=
      ⟨henters, hwithin, hfields, hjoins⟩
    by_cases hstill : t₁.source.position = r₂.source.position
    · rw [hturn.loop_unmoved hstill] at hrun
      cases hrun
      exact .inl (.progress hturn hstill)
    · rw [hturn.loop_moved hstill] at hrun
      exact .inr ⟨fields, joined, t₁, hturn, hstill, hrun⟩

theorem Iterates.exists_failure {first : Scope} {start : Reading} {n : Nat} {visible : List Scope}
    {scope : Scope} {failure : Failure} {steps : Nat} (hbody : Forward body)
    (hbefore : Iterates context head body outer first start n visible scope r)
    (hsteps : r.source.unread < steps)
    (h : loop context head body outer steps n visible scope r = .error failure s) :
    ∃ m seen current t, Iterates context head body outer first start m seen current t ∧
      LoopFailure context head body outer m seen current t failure s := by
  induction steps generalizing n visible scope r with
  | zero => omega
  | succ steps ih =>
    rcases loop_error_cases h with hfailure | ⟨fields, joined, t, hturn, hmoved, hrest⟩
    · exact ⟨n, visible, scope, r, hbefore, hfailure⟩
    · have htaken := hbody.unread_lt hturn.run hmoved
      exact ih (hbefore.next hturn hmoved) (by omega) hrest

theorem loop_error_iff {scope : Scope} {failure : Failure} (hbody : Forward body) :
    loop context head body outer (r.source.unread + 1) 0 [] scope r = .error failure s ↔
      ∃ n visible current t, Iterates context head body outer scope r n visible current t ∧
        LoopFailure context head body outer n visible current t failure s := by
  constructor
  · exact Iterates.start.exists_failure hbody (Nat.lt_succ_self _)
  · rintro ⟨n, visible, current, t, hbefore, hfailure⟩
    have hunread := hbefore.unread hbody
    obtain ⟨steps, hsteps⟩ : ∃ steps, r.source.unread + 1 = n + (steps + 1) :=
      ⟨r.source.unread - n, by omega⟩
    rw [hsteps, hbefore.loop_eq, hfailure.loop_error]

end Decoder

end BinarySchema
