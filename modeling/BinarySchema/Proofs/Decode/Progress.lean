import Mathlib
import BinarySchema.Proofs.Decode.Levels
import BinarySchema.Proofs.Expression.Operands
import BinarySchema.Proofs.Result.Lookup
import BinarySchema.Proofs.Schema.Terms

/-!
# Iterations without progress

An iteration that consumes nothing ends the decode, on the ground that the condition of its loop would
not change. Results that took no byte have no integers in them, at any depth, so the fields of such an
iteration give the condition nothing to compute with. What the condition can still find, under the
names that it looks for, are the fields around the loop, and these it found before as well, unless a
field of the iteration before hid them. Fields under the number of an iteration are never among them,
because a word of a source has no bracket in it. So the ground holds as long as such a name does not
get lost from one iteration to the next; if it gets lost the condition can change, and a loop that was
about to end fails.
-/

namespace BinarySchema

namespace Decoder

theorem bracket_mem_indexedName (name : String) (index : Nat) :
    '[' ∈ (indexedName name index).toList := by
  simp only [indexedName, String.toList_append, List.mem_append]
  exact .inl (.inl (.inr List.mem_cons_self))

theorem get?_indexed {name : String} (hname : '[' ∉ name.toList) (fields : Scope) (index : Nat) :
    Scope.get? (fields.map fun x => x.rename (indexedName x.name index)) name = none := by
  rw [Scope.get?_eq_none_iff]
  intro hmem
  simp only [Scope.names, List.map_map, List.mem_map, Function.comp_apply] at hmem
  obtain ⟨field, -, rfl⟩ := hmem
  exact hname (bracket_mem_indexedName _ _)

theorem bracket_not_mem_of_lookup? {types : TypeTable} {term : Term} (h : term.Plain) {name : String}
    (hname : name ∈ term.lookup? types) : '[' ∉ name.toList := by
  obtain ⟨kind, text, pos⟩ := term
  cases kind with
  | name =>
    cases hname
    exact Piece.bracket_not_mem_of_beginsWord (Piece.beginsWord_of_isIdentifier h)
  | constant =>
    have howner : name = (Expression.splitConstant text).1 := by
      simp only [Term.lookup?] at hname
      split at hname <;> cases hname
      rfl
    have hword := Piece.bracket_not_mem_of_beginsWord (Piece.beginsWord_of_isDotted h)
    rw [howner, Expression.splitConstant, String.toList_ofList]
    exact fun hmem => hword ((List.takeWhile_sublist _).subset hmem)
  | number | operator | probe => cases hname

/-! ### Results without bytes -/

variable {context : DecodeContext} {r s : Reading}

/-- That results which took no byte have no integers in them. -/
structure BareIfStill (r : Reading) (results : List Result) (s : Reading) : Prop where
  forward : MovesForward r results s
  bare : s.source.position = r.source.position →
    ∀ result ∈ Scope.everywhere results, result.toInteger? = none

theorem BareIfStill.of_moved {results : List Result} (h : MovesForward r results s)
    (hmoved : s.source.unread < r.source.unread) : BareIfStill r results s where
  forward := h
  bare hstill := by
    obtain ⟨bytes, hconsumes⟩ := h
    have hposition := hconsumes.position
    have hunread := hconsumes.unread
    omega

theorem BareIfStill.append {t : Reading} {left right : List Result} (hleft : BareIfStill r left s)
    (hright : BareIfStill s right t) : BareIfStill r (left ++ right) t where
  forward := by
    obtain ⟨first, hfirst⟩ := hleft.forward
    obtain ⟨second, hsecond⟩ := hright.forward
    exact ⟨_, hfirst.trans hsecond⟩
  bare hstill := by
    obtain ⟨first, hfirst⟩ := hleft.forward
    obtain ⟨second, hsecond⟩ := hright.forward
    have hbetween := hfirst.position
    have hafter := hsecond.position
    rw [Scope.everywhere_append]
    intro result hresult
    rcases List.mem_append.1 hresult with h | h
    · exact hleft.bare (by omega) result h
    · exact hright.bare (by omega) result h

/-- A result that only holds others has no integer of its own. -/
theorem BareIfStill.group {entry : Result} {fields : Scope} (hvalue : entry.value = .scope fields)
    (hraw : entry.raw = none) (h : BareIfStill r fields s) : BareIfStill r [entry] s where
  forward := h.forward
  bare hstill := by
    have hchildren : entry.children = fields := by rw [Entry.children, hvalue]
    rw [Scope.everywhere_cons, hchildren, Scope.everywhere_nil, List.append_nil]
    intro result hresult
    rcases List.mem_cons.1 hresult with rfl | hinside
    · rw [Entry.toInteger?, hraw, hvalue]
      rfl
    · exact h.bare hstill result hinside

theorem bareIfStill_accumulates (context : DecodeContext) :
    Accumulates context (fun _ => True) BareIfStill where
  bodies _ _ _ := trivial
  nil r := ⟨(consumes_accumulates context).nil r, by simp⟩
  append := BareIfStill.append
  rename name h := {
    forward := h.forward
    bare := fun hstill =>
      Scope.forall_everywhere_rename name (fun _ hentry => hentry) (h.bare hstill) }
  primitive _ hread :=
    .of_moved (primitive_consumes hread) (primitive_unread_lt hread)
  enum hfound hrun := by
    obtain ⟨raw, size, t, hread, hsource, -⟩ := enum_ok hrun
    refine .of_moved ((consumes_accumulates context).enum hfound hrun) ?_
    rw [hsource]
    exact baseInteger_unread_lt hread
  bitfield hfound hrun := by
    obtain ⟨raw, size, hread, -⟩ := bitfield_ok hrun
    exact .of_moved ((consumes_accumulates context).bitfield hfound hrun)
      (baseInteger_unread_lt hread)
  struct h := .group rfl rfl h
  text {declared count bytes text r s} hread hcoded := {
    forward := (consumes_accumulates context).text hread hcoded
    bare := by
      intro hstill result hresult
      obtain ⟨-, hconsumes, -⟩ := read_ok hread
      have hlength := hconsumes.length
      have hnothing : bytes = [] := List.eq_nil_of_length_eq_zero (by omega)
      subst hnothing
      rw [Scope.everywhere_flat (by simp [Entry.children])] at hresult
      obtain rfl := List.mem_singleton.1 hresult
      obtain ⟨_, hchars, rfl⟩ := Except.map_ok_iff.1 hcoded
      obtain rfl := Except.ok.inj ((context.options.textEncoding.codec.read_nil).symm.trans hchars)
      rfl }
  items h := .group rfl rfl h

/-! ### Conditions -/

theorem entered_transfer {head : BlockHead} {scopes others : List Scope} {enters : Bool}
    (h : entered context head scopes r = .ok enters r)
    (hcarries : Expression.Carries
      ⟨r.source.position, r.source.size, scopes, context.types⟩
      ⟨s.source.position, s.source.size, others, context.types⟩ head.condition.terms) :
    entered context head others s = .ok enters s := by
  obtain ⟨holds, t, hevaluate, hpure⟩ := bind_ok_iff.1 h
  obtain ⟨rfl, hcondition⟩ := evaluate_ok hevaluate
  obtain ⟨rfl, -⟩ := pure_ok_iff.1 hpure
  obtain ⟨v, hvalue, rfl⟩ := Except.map_ok_iff.1 hcondition
  have hother := Expression.evaluate_transfer hvalue hcarries
  exact bind_ok_iff.2 ⟨_, s, evaluate_of_ok (Except.map_ok_iff.2 ⟨v, hother, rfl⟩), rfl⟩

/-- After an iteration that consumed nothing, the condition of a loop does not end it, unless a name that
the condition looks for was a field of the iteration before and is none of this one. -/
theorem Turn.entered_ne_false {head : BlockHead} {body : List Scope → Decoder Scope}
    {outer : List Scope} {iteration : Nat} {visible : List Scope} {scope fields joined : Scope}
    (h : Turn context head body outer iteration visible scope r fields joined s)
    (hbody : BareIfStill r fields s) (hstill : s.source.position = r.source.position)
    (hplain : ∀ term ∈ head.condition.terms, term.Plain)
    (hkept : ∀ term ∈ head.condition.terms, ∀ name ∈ term.lookup? context.types,
      ∀ seen ∈ visible, name ∈ Scope.names seen → name ∈ Scope.names fields) :
    entered context head (fields :: joined :: outer) s ≠ .ok false s := by
  intro hleaves
  obtain ⟨rfl, -⟩ := addAll_ok h.joins
  have hsize : s.source.size = r.source.size := by
    obtain ⟨bytes, hconsumes⟩ := hbody.forward
    exact hconsumes.size
  have hbefore : entered context head (visible ++ scope :: outer) r = .ok false r := by
    refine entered_transfer hleaves fun term hterm v hoperand => ?_
    refine hoperand.transfer (congrArg Int.ofNat hstill) (congrArg Int.ofNat hsize) rfl ?_
    rintro name hname found hfound ⟨result, hresult, hinteger⟩
    -- A field of this iteration is nothing to compute with, so the name is none of them.
    have hmissing : Scope.get? fields name = none := by
      cases hfield : Scope.get? fields name with
      | none => rfl
      | some field =>
        rw [Scope.resolve?_cons, hfield, Option.some_or] at hfound
        obtain rfl := Option.some.inj hfound
        have hinside := Scope.everywhere_subset_of_mem (List.mem_of_find?_eq_some hfield) hresult
        rw [hbody.bare hstill result hinside] at hinteger
        cases hinteger
    have hunseen : ∀ seen ∈ visible, name ∉ Scope.names seen := by
      intro seen hseen hmem
      exact Scope.get?_eq_none_iff.1 hmissing (hkept term hterm name hname seen hseen hmem)
    have hindexed :=
      get?_indexed (bracket_not_mem_of_lookup? (hplain term hterm) hname) fields iteration
    rw [Scope.resolve?_append_of_unnamed hunseen, Scope.resolve?_cons]
    rwa [Scope.resolve?_cons, Scope.resolve?_cons, hmissing, Option.none_or, Scope.get?_append,
      hindexed, Option.or_none] at hfound
  have henters := h.enters
  rw [hbefore] at henters
  cases henters

/-- The body of a control block in a decode that has some levels of structs left. -/
def blockBody (context : DecodeContext) (levels : Nat) (body : List Node) (scopes : List Scope) :
    Decoder Scope :=
  nodes context (structBody context levels) body scopes []

theorem blockBody_bareIfStill {levels : Nat} {body : List Node} {scopes : List Scope} {fields : Scope}
    (h : blockBody context levels body scopes r = .ok fields s) : BareIfStill r fields s := by
  have haccumulates := bareIfStill_accumulates context
  obtain ⟨added, rfl, hadded⟩ :=
    haccumulates.nodes (haccumulates.structBody levels) body (fun _ _ => trivial) h
  exact hadded

end Decoder

open Decoder

/-- A loop of a compiled schema fails for want of progress behind an iteration that consumed nothing. If
no name that its condition looks for was lost in this iteration, the condition would not have ended it. -/
theorem loop_noProgress_of_kept_names {schema : Schema} (hschema : schema.Compiled)
    {options : Options} {levels : Nat} {head : BlockHead} (hhead : head ∈ schema.heads)
    {body : List Node} {outer : List Scope} {first : Scope} {start : Reading} {n : Nat}
    {visible : List Scope} {scope fields joined : Scope} {r s : Reading}
    (hbefore : Iterates ⟨schema.types, options⟩ head (blockBody ⟨schema.types, options⟩ levels body)
      outer first start n visible scope r)
    (hturn : Turn ⟨schema.types, options⟩ head (blockBody ⟨schema.types, options⟩ levels body) outer n
      visible scope r fields joined s)
    (hstill : s.source.position = r.source.position)
    (hkept : ∀ term ∈ head.condition.terms, ∀ name ∈ term.lookup? schema.types,
      ∀ seen ∈ visible, name ∈ Scope.names seen → name ∈ Scope.names fields) :
    loop ⟨schema.types, options⟩ head (blockBody ⟨schema.types, options⟩ levels body) outer
        (start.source.unread + 1) 0 [] first start
      = .error (.decode ⟨.noProgress, some head.label, some s.source.position⟩) s ∧
    entered ⟨schema.types, options⟩ head (fields :: joined :: outer) s ≠ .ok false s := by
  have hforward : Forward (blockBody ⟨schema.types, options⟩ levels body) :=
    fun _ _ _ _ hrun => (blockBody_bareIfStill hrun).forward
  have hunread := hbefore.unread hforward
  obtain ⟨steps, hsteps⟩ : ∃ steps, start.source.unread + 1 = n + (steps + 1) :=
    ⟨start.source.unread - n, by omega⟩
  have hplain := (hschema.plain_condition hhead).2
  constructor
  · rw [hsteps, hbefore.loop_eq, hturn.loop_unmoved hstill]
  · exact hturn.entered_ne_false (blockBody_bareIfStill hturn.run) hstill hplain hkept

def Expression.inFirstTwo (column : Nat) : Expression :=
  ⟨[⟨.probe, "@pos", ⟨1, column⟩⟩, ⟨.operator, "<", ⟨1, column + 4⟩⟩,
    ⟨.number 2, "2", ⟨1, column + 5⟩⟩], ⟨1, column⟩⟩

def BlockHead.emptied : BlockHead :=
  ⟨⟨true, false⟩, ⟨[⟨.probe, "@pos", ⟨1, 21⟩⟩, ⟨.operator, "<", ⟨1, 25⟩⟩, ⟨.number 2, "2", ⟨1, 26⟩⟩,
    ⟨.operator, "+", ⟨1, 27⟩⟩, ⟨.name, "n", ⟨1, 28⟩⟩], ⟨1, 21⟩⟩, ⟨1, 15⟩⟩

def Node.emptied : List Node := [
  .block ⟨⟨false, true⟩, .inFirstTwo 38, ⟨1, 31⟩⟩ [
    .field { name := "n", type := .primitive .char, pos := ⟨1, 46⟩
             length := some ⟨[⟨.number 0, "0", ⟨1, 53⟩⟩], ⟨1, 53⟩⟩ }],
  .block ⟨⟨false, false⟩, .inFirstTwo 60, ⟨1, 57⟩⟩ [
    .field { name := "n", type := .primitive .byte, pos := ⟨1, 68⟩ }]]

/-- A number, and a loop that puts another number of the same name before it, and then a text without
characters. -/
def Schema.emptied : Schema where
  types := { frozen := true }
  root := some [
    .field { name := "n", type := .primitive .byte, pos := ⟨1, 8⟩ },
    .block .emptied Node.emptied]

theorem Schema.emptied_compiled : emptied.Compiled := by
  have hrun : compile {}
      "schema{n:byte;while(@pos<2+n){unless(@pos<2){n:char[0];}if(@pos<2){n:byte;}}}"
        = .ok emptied := by
    cbv
  exact .text hrun

theorem loop_noProgress_of_kept_names_emptied :
    ∃ (start r s : Reading) (first before scope fields joined : Scope),
      Iterates ⟨Schema.emptied.types, {}⟩ .emptied
        (blockBody ⟨Schema.emptied.types, {}⟩ 0 Node.emptied) [] first start 1 [before] scope r ∧
      Turn ⟨Schema.emptied.types, {}⟩ .emptied
        (blockBody ⟨Schema.emptied.types, {}⟩ 0 Node.emptied) [] 1 [before] scope r fields joined s ∧
      Scope.names before = ["n"] ∧ Scope.names fields = ["n"] ∧
      loop ⟨Schema.emptied.types, {}⟩ .emptied
          (blockBody ⟨Schema.emptied.types, {}⟩ 0 Node.emptied) [] (start.source.unread + 1) 0 []
          first start
        = .error (.decode ⟨.noProgress, some BlockHead.emptied.label, some s.source.position⟩) s ∧
      entered ⟨Schema.emptied.types, {}⟩ .emptied [fields, joined] s ≠ .ok false s := by
  let number (name : String) (offset : Int) (n : Int) : Result :=
    { kind := .primitive, name, offset, size := 1, typeName := "byte", value := .int n }
  let text (name : String) : Result :=
    { kind := .array, name, offset := 2, size := 0, typeName := "char[]", value := .text "" }
  let start : Reading := ⟨.ofBytes [0, 5] 1, []⟩
  let atEnd : Reading := ⟨.ofBytes [0, 5] 2, []⟩
  let first : Scope := [number "n" 0 0]
  let scope : Scope := [number "n" 0 0, number "n[0]" 1 5]
  let joined : Scope := [number "n" 0 0, number "n[0]" 1 5, text "n[1]"]
  have hfirst : Turn ⟨Schema.emptied.types, {}⟩ .emptied
      (blockBody ⟨Schema.emptied.types, {}⟩ 0 Node.emptied) [] 0 [] first start [number "n" 1 5] scope
      atEnd := ⟨rfl, rfl, rfl, rfl⟩
  have hturn : Turn ⟨Schema.emptied.types, {}⟩ .emptied
      (blockBody ⟨Schema.emptied.types, {}⟩ 0 Node.emptied) [] 1 [[number "n" 1 5]] scope atEnd
      [text "n"] joined atEnd := ⟨rfl, rfl, rfl, rfl⟩
  have hbefore : Iterates ⟨Schema.emptied.types, {}⟩ .emptied
      (blockBody ⟨Schema.emptied.types, {}⟩ 0 Node.emptied) [] first start 1 [[number "n" 1 5]] scope
      atEnd := .next .start hfirst (by decide)
  have hhead : BlockHead.emptied ∈ Schema.emptied.heads := List.mem_cons_self
  -- The one name that the condition looks for is kept, by a field that it cannot compute with.
  have hkept : ∀ term ∈ BlockHead.emptied.condition.terms, ∀ name ∈ term.lookup? Schema.emptied.types,
      ∀ seen ∈ [[number "n" 1 5]], name ∈ Scope.names seen → name ∈ Scope.names [text "n"] := by
    intro term _ name _ seen hseen hname
    rw [List.mem_singleton.1 hseen] at hname
    exact hname
  have hfails := loop_noProgress_of_kept_names Schema.emptied_compiled hhead hbefore hturn rfl hkept
  exact ⟨start, atEnd, atEnd, first, _, scope, _, joined, hbefore, hturn, rfl, rfl, hfails⟩

/-- A number, and a loop that may put another number of the same name before it. -/
def Schema.renumbered : Schema where
  types := { frozen := true }
  root := some [
    .field { name := "n", type := .primitive .byte, pos := ⟨1, 10⟩ },
    .block ⟨⟨true, false⟩, ⟨[⟨.probe, "@pos", ⟨1, 27⟩⟩, ⟨.operator, "<", ⟨1, 32⟩⟩,
        ⟨.number 2, "2", ⟨1, 34⟩⟩, ⟨.operator, "+", ⟨1, 36⟩⟩, ⟨.name, "n", ⟨1, 38⟩⟩], ⟨1, 27⟩⟩,
        ⟨1, 20⟩⟩ [
      .block ⟨⟨false, false⟩, ⟨[⟨.probe, "@pos", ⟨1, 47⟩⟩, ⟨.operator, "<", ⟨1, 52⟩⟩,
          ⟨.number 2, "2", ⟨1, 54⟩⟩], ⟨1, 47⟩⟩, ⟨1, 43⟩⟩ [
        .field { name := "n", type := .primitive .byte, pos := ⟨1, 59⟩ }]]]

/-- The loop fails in an iteration in which the number that the iteration before had is lost. With the
number in front of the loop, which is found again in its place, the condition would have ended it. -/
theorem loop_noProgress_of_lost_name :
    Schema.compile {} "schema { n : byte; while (@pos < 2 + n) { if (@pos < 2) { n : byte; } } }"
      = .ok Schema.renumbered ∧
    ∃ (head : BlockHead) (body : List Node) (before scope joined : Scope) (r s : Reading),
      Schema.renumbered.root = some [
        .field { name := "n", type := .primitive .byte, pos := ⟨1, 10⟩ }, .block head body] ∧
      Schema.renumbered.decode {} (.ofBytes [0, 5])
        = .error (.decode ⟨.noProgress, some head.label, some s.source.position⟩) s ∧
      Turn ⟨Schema.renumbered.types, {}⟩ head (blockBody ⟨Schema.renumbered.types, {}⟩ 0 body) [] 1
        [before] scope r [] joined s ∧
      s.source.position = r.source.position ∧
      entered ⟨Schema.renumbered.types, {}⟩ head [[], joined] s = .ok false s := by
  have hrun : Schema.compile {}
      "schema { n : byte; while (@pos < 2 + n) { if (@pos < 2) { n : byte; } } }"
        = .ok Schema.renumbered := by
    cbv
  let value (name : String) (offset : Int) (number : Int) : Result :=
    { kind := .primitive, name, offset, size := 1, typeName := "byte", value := .int number }
  let scope : Scope := [value "n" 0 0, value "n[0]" 1 5]
  let atEnd : Reading := ⟨.ofBytes [0, 5] 2, []⟩
  exact ⟨hrun, _, _, [value "n" 1 5], scope, scope, atEnd, atEnd, rfl, rfl, ⟨rfl, rfl, rfl, rfl⟩,
    rfl, rfl⟩

end BinarySchema
