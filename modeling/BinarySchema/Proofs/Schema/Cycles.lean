import BinarySchema.Proofs.Schema.Errors
import BinarySchema.Proofs.Schema.Run
import BinarySchema.Proofs.Token.Lexemes
import Mathlib.Logic.Relation

/-!
# Cycles of includes

Compiling reads sources depth first: those being read are active, and those wholly read are settled. The
directives in the texts are the edges of a graph whose vertices are the root and the resolved paths.

Two facts are carried along a run. Each active path leads to the source being read, so a directive for
one of them closes a cycle. And no edge leaves the settled paths, and none of them is on a cycle: this is
kept when a source ends, since all that it includes is settled by then and it is not settled itself.
-/

namespace BinarySchema

open Relation (ReflTransGen TransGen)

/-! ### Graphs -/

section

variable {α : Type} {edge : α → α → Prop} {places : Set α} {a b : α}

/-- That no edge leaves some vertices and none of them is on a cycle. -/
structure Sealed (edge : α → α → Prop) (places : Set α) : Prop where
  closed : ∀ a ∈ places, ∀ b, edge a b → b ∈ places
  acyclic : ∀ a ∈ places, ¬ TransGen edge a a

namespace Sealed

theorem mem_of_reflTransGen (h : Sealed edge places) (ha : a ∈ places) (hab : ReflTransGen edge a b) :
    b ∈ places := by
  induction hab with
  | refl => exact ha
  | tail _ hstep ih => exact h.closed _ ih _ hstep

/-- A vertex from which all edges lead into sealed ones is sealed with them. -/
theorem insert (h : Sealed edge places) (hnew : a ∉ places) (hedges : ∀ b, edge a b → b ∈ places) :
    Sealed edge (insert a places) where
  closed := by
    intro b hb c hstep
    rcases hb with rfl | hb
    · exact .inr (hedges c hstep)
    · exact .inr (h.closed b hb c hstep)
  acyclic := by
    intro b hb hcycle
    rcases hb with rfl | hb
    · obtain ⟨c, hfirst, hrest⟩ := TransGen.head'_iff.1 hcycle
      exact hnew (h.mem_of_reflTransGen (hedges c hfirst) hrest)
    · exact h.acyclic b hb hcycle

end Sealed

end

/-! ### The graph of includes -/

namespace Root

variable (fs : FileSystem) (root : Root)

/-- The directory and the text of a source. The root has the text that it is compiled from. -/
def sourceAt (place : Option Path) : Option (Path × String) :=
  if place = root.path? fs then
    (root.readText fs).toOption.map fun text => (root.directory fs, text)
  else place.bind fun path => (fs.textAt path).map fun text => (path.parent, text)

/-- That a source has a directive for another one. -/
def Includes (place other : Option Path) : Prop :=
  ∃ directory text name, root.sourceAt fs place = some (directory, text) ∧
    name ∈ includedNames (TokenStream.scan text).tokens ∧
      other = some (Path.resolve directory name)

/-- What is known where a source is read: its place in the graph, that the rest of it is all that has to
be read, and that the active sources lead to it. -/
structure At (place : Option Path) (standing : Standing) (c : Cursor) : Prop where
  edges : ∀ name ∈ includedNames c.tokens,
    root.Includes fs place (some (Path.resolve standing.directory name))
  tokens : ∀ token ∈ c.tokens, token.kind ≠ .endOfInput
  leads : ∀ path ∈ standing.active, ReflTransGen (root.Includes fs) (some path) place
  active : ∀ path ∈ place, path ∈ standing.active
  outset : ∀ path ∈ root.path? fs, path ∈ standing.active

variable {fs root} {standing : Standing} {draft : Draft} {place : Option Path} {c d : Cursor}
  {keyword : Token} {declared : Reader.Declaration}

theorem includes_iff {text : String} {directory : Path} {other : Option Path}
    (h : root.sourceAt fs place = some (directory, text)) : root.Includes fs place other ↔
      ∃ name ∈ includedNames (TokenStream.scan text).tokens,
        other = some (Path.resolve directory name) := by
  constructor
  · rintro ⟨directory', text', name, hsource, hname, hother⟩
    cases h.symm.trans hsource
    exact ⟨name, hname, hother⟩
  · rintro ⟨name, hname, hother⟩
    exact ⟨directory, text, name, h, hname, hother⟩

theorem sourceAt_outset {text : String} (h : root.readText fs = .ok text) :
    root.sourceAt fs (root.path? fs) = some (root.directory fs, text) := by
  rw [sourceAt, if_pos rfl, h]
  rfl

theorem At.start {text : String} (h : root.readText fs = .ok text) :
    root.At fs (root.path? fs) (root.standing fs) (.scan text) where
  edges name hname := (includes_iff (sourceAt_outset h)).2 ⟨name, hname, rfl⟩
  tokens := TokenStream.kind_ne_scan text
  leads := by
    intro path hpath
    rw [Option.mem_toList.1 hpath]
  active _ hpath := Option.mem_toList.2 hpath
  outset _ hpath := Option.mem_toList.2 hpath

namespace At

variable (h : root.At fs place standing c)
  (hread : Reader.declaration? draft.types c = .ok (some (keyword, declared), d))

include h hread

theorem rest : root.At fs place standing d where
  edges := by
    intro name hname
    apply h.edges
    rw [Reader.includedNames_of_some hread]
    exact List.mem_append_right _ hname
  tokens := by
    obtain ⟨used, rfl, -⟩ := Reader.declaration?_some hread
    exact fun token htoken => h.tokens token (List.mem_append_right _ htoken)
  leads := h.leads
  active := h.active
  outset := h.outset

theorem includes {token : Token} {name : String} (hdeclared : declared = .inclusion token name) :
    root.Includes fs place (some (Path.resolve standing.directory name)) := by
  apply h.edges
  rw [Reader.includedNames_of_some hread, hdeclared]
  exact List.mem_cons_self

theorem enter {path : Path} {text : String}
    (heffect : Draft.effect fs standing draft keyword declared = .ok (.enters path text)) :
    root.Includes fs place (some path) ∧ root.sourceAt fs (some path) = some (path.parent, text) ∧
      root.At fs (some path) (standing.inside path) (.scan text) := by
  obtain ⟨token, name, hdeclared, rfl, hactive, -, htext⟩ := Draft.effect_enters heffect
  have hedge := h.includes hread hdeclared
  have hother : some (Path.resolve standing.directory name) ≠ root.path? fs := by
    intro hroot
    exact hactive (h.outset _ hroot.symm)
  have hsource : root.sourceAt fs (some (Path.resolve standing.directory name))
      = some ((Path.resolve standing.directory name).parent, text) := by
    rw [sourceAt, if_neg hother, Option.bind_some, htext]
    rfl
  refine ⟨hedge, hsource, ?_, TokenStream.kind_ne_scan text, ?_, ?_, ?_⟩
  · exact fun inner hinner => (includes_iff hsource).2 ⟨inner, hinner, rfl⟩
  · intro active hmem
    rcases List.mem_cons.1 hmem with rfl | hmem
    · exact .refl
    · exact (h.leads active hmem).tail hedge
  · rintro _ ⟨⟩
    exact List.mem_cons_self
  · exact fun active hroot => List.mem_cons_of_mem _ (h.outset active hroot)

end At

/-! ### Runs over the graph -/

variable {met : List Path}

theorem At.exists_cycle {name shown : String} {pos : Position} (h : root.At fs place standing c)
    (hrun : Draft.Run fs standing draft c met (.error (.circularInclude name shown pos))) :
    ∃ other, ReflTransGen (root.Includes fs) place other ∧ TransGen (root.Includes fs) other other := by
  generalize hresult : Except.error (CompileError.circularInclude name shown pos) = result at hrun
  induction hrun generalizing place with
  | ended => cases hresult
  | @failed _ _ c _ hread =>
    cases hresult
    have hholds : c.Holds Reader.Any c.ending := ⟨fun _ _ => trivial, rfl⟩
    exact nomatch (Reader.Draws.declaration? _).of_error hholds hread
  | refused hread heffect =>
    cases hresult
    obtain ⟨token, other, rfl, hactive⟩ := Draft.effect_circular heffect
    have hedge := h.includes hread rfl
    exact ⟨_, .single hedge, TransGen.tail' (h.leads _ hactive) hedge⟩
  | went hread heffect rest ih => exact ih (h.rest hread) hresult
  | broken hread heffect inside ih =>
    obtain ⟨hedge, -, hinside⟩ := h.enter hread heffect
    obtain ⟨other, hreach, hcycle⟩ := ih hinside hresult
    exact ⟨other, hreach.head hedge, hcycle⟩
  | entered hread heffect inside rest ih ih' => exact ih' (h.rest hread) hresult

/-- The sources that are met and not active. -/
def settled (standing : Standing) (draft : Draft) : Set (Option Path) :=
  {place | ∃ path, place = some path ∧ path ∈ draft.included ∧ path ∉ standing.active}

theorem settled_inside {path : Path} (hnew : path ∉ draft.included) :
    settled (standing.inside path) (draft.meets path) = settled standing draft := by
  ext place
  constructor
  · rintro ⟨other, rfl, hmem, hother⟩
    obtain ⟨hne, hactive⟩ := not_or.1 (mt List.mem_cons.2 hother)
    exact ⟨other, rfl, List.mem_of_ne_of_mem hne hmem, hactive⟩
  · rintro ⟨other, rfl, hmem, hother⟩
    refine ⟨other, rfl, List.mem_cons_of_mem _ hmem, fun hactive => ?_⟩
    rcases List.mem_cons.1 hactive with rfl | hactive
    · exact hnew hmem
    · exact hother hactive

theorem settled_outside {path : Path} (hactive : path ∉ standing.active)
    (hmem : path ∈ draft.included) :
    settled standing draft = insert (some path) (settled (standing.inside path) draft) := by
  ext place
  constructor
  · rintro ⟨other, rfl, hother, hother'⟩
    by_cases heq : other = path
    · exact .inl (congrArg some heq)
    · exact .inr ⟨other, rfl, hother, fun h => (List.mem_cons.1 h).elim heq hother'⟩
  · rintro (rfl | ⟨other, rfl, hother, hother'⟩)
    · exact ⟨path, rfl, hmem, hactive⟩
    · exact ⟨other, rfl, hother, fun h => hother' (List.mem_cons_of_mem _ h)⟩

theorem settled_mono {after : Draft} (h : draft.included ⊆ after.included) :
    settled standing draft ⊆ settled standing after := by
  rintro _ ⟨path, rfl, hmem, hactive⟩
  exact ⟨path, rfl, h hmem, hactive⟩

/-- A run that comes to a result keeps the settled sources sealed, and settles all that is included
behind its start. -/
theorem At.sealed {after : Draft} (h : root.At fs place standing c)
    (hrun : Draft.Run fs standing draft c met (.ok after)) (hopen : draft.types.Open)
    (hsealed : Sealed (root.Includes fs) (settled standing draft)) :
    Sealed (root.Includes fs) (settled standing after) ∧
      ∀ name ∈ includedNames c.tokens,
        some (Path.resolve standing.directory name) ∈ settled standing after := by
  generalize hresult : (Except.ok after : Except CompileError Draft) = result at hrun
  induction hrun generalizing place after with
  | failed | refused | broken => cases hresult
  | ended hread =>
    cases hresult
    obtain ⟨hremarks, -⟩ := Reader.declaration?_none h.tokens hread
    rw [Reader.includedNames_of_remarks hremarks]
    exact ⟨hsealed, nofun⟩
  | @went standing draft _ _ keyword declared between _ _ hread heffect rest ih =>
    obtain ⟨hbetween, hincluded⟩ := Draft.effect_goes heffect hopen
    have hsame : settled standing between = settled standing draft := by
      unfold settled
      rw [hincluded]
    obtain ⟨hafter, hrest⟩ := ih (h.rest hread) hbetween (hsame ▸ hsealed) hresult
    refine ⟨hafter, fun name hname => ?_⟩
    rw [Reader.includedNames_of_some hread, List.mem_append] at hname
    rcases hname with hhere | hbehind
    · have hkept := Draft.Run.included_subset (hresult ▸ rest) hbetween
      cases declared with
      | definition d => cases hhere
      | root body => cases hhere
      | inclusion token other =>
        obtain rfl := List.mem_singleton.1 hhere
        obtain ⟨hactive, hmem⟩ := Draft.effect_inclusion_goes heffect
        exact settled_mono hkept ⟨_, rfl, hincluded ▸ hmem, hactive⟩
    · exact hrest name hbehind
  | @entered standing draft _ _ _ declared path text _ between _ _ hread heffect inside rest ih ih' =>
    obtain ⟨token, other, rfl, hpath, hactive, hnew, -⟩ := Draft.effect_enters heffect
    obtain ⟨-, hsource, hinside⟩ := h.enter hread heffect
    obtain ⟨hbetween, -⟩ := Draft.Run.ok_included inside hopen
    have hmem : path ∈ between.included :=
      Draft.Run.included_subset inside hopen List.mem_cons_self
    have hkept := Draft.Run.included_subset (hresult ▸ rest) hbetween
    rw [← settled_inside hnew] at hsealed
    obtain ⟨hsealed, hincludes⟩ := ih hinside hopen hsealed rfl
    -- The source that ends is not settled inside itself, and all that it includes is.
    have hsettled : Sealed (root.Includes fs) (settled standing between) := by
      rw [settled_outside hactive hmem]
      refine hsealed.insert ?_ fun place hedge => ?_
      · rintro ⟨_, ⟨⟩, -, hinactive⟩
        exact hinactive List.mem_cons_self
      · obtain ⟨name, hname, rfl⟩ := (includes_iff hsource).1 hedge
        exact hincludes name hname
    obtain ⟨hafter, hrest⟩ := ih' (h.rest hread) hbetween hsettled hresult
    refine ⟨hafter, fun name hname => ?_⟩
    rw [Reader.includedNames_of_some hread] at hname
    rcases List.mem_append.1 hname with hhere | hbehind
    · obtain rfl := List.mem_singleton.1 hhere
      exact settled_mono hkept ⟨_, rfl, hpath ▸ hmem, hpath ▸ hactive⟩
    · exact hrest name hbehind

end Root

/-- Compiling ends and reads no source twice. It finds a circular include only if the root leads to a
cycle of includes, and comes to a schema only if it does not. -/
theorem include_cycles_exact (fs : FileSystem) (root : Root) :
    (match root.readText fs with
      | .error e => root.compile fs = .error (.file e)
      | .ok text => ∃ met result,
          Draft.Run fs (root.standing fs) (root.draft fs) (.scan text) met result ∧
          ((root.path? fs).toList ++ met).Nodup ∧
          root.compile fs = (result.map (·.finish root.name?)).mapError .compile) ∧
    (∀ name shown pos, root.compile fs = .error (.compile (.circularInclude name shown pos)) →
      ∃ place, ReflTransGen (root.Includes fs) (root.path? fs) place ∧
        TransGen (root.Includes fs) place place) ∧
    (∀ place, ReflTransGen (root.Includes fs) (root.path? fs) place →
      TransGen (root.Includes fs) place place → ∀ schema, root.compile fs ≠ .ok schema) := by
  cases htext : root.readText fs with
  | error e =>
    have hcompile := Root.compile_of_error htext
    refine ⟨hcompile, fun name shown pos h => ?_, fun place _ _ schema h => ?_⟩
    · rw [hcompile] at h
      cases h
    · rw [hcompile] at h
      cases h
  | ok text =>
    obtain ⟨met, result, hrun, hcompile⟩ := Root.exists_run htext
    have hat := Root.At.start htext
    refine ⟨⟨met, result, hrun, ?_, hcompile⟩, fun name shown pos h => ?_,
      fun place hreach hcycle schema h => ?_⟩
    · obtain ⟨hnodup, hnew⟩ := hrun.met_nodup .empty
      have hroot : (root.path? fs).toList.Nodup := by cases root.path? fs <;> simp
      refine List.nodup_append.2 ⟨hroot, hnodup, ?_⟩
      rintro path hroot _ hmem rfl
      exact hnew path hmem hroot
    · rw [hcompile] at h
      cases result with
      | ok after => cases h
      | error e =>
        cases h
        exact hat.exists_cycle hrun
    · rw [hcompile] at h
      cases result with
      | error e => cases h
      | ok after =>
        have hempty : Root.settled (root.standing fs) (root.draft fs) = ∅ := by
          ext place
          refine iff_of_false ?_ id
          rintro ⟨path, rfl, hmem, hactive⟩
          exact hactive hmem
        have hsealed : Sealed (root.Includes fs) (Root.settled (root.standing fs) (root.draft fs)) := by
          rw [hempty]
          exact ⟨nofun, nofun⟩
        obtain ⟨hafter, hincludes⟩ := hat.sealed hrun .empty hsealed
        -- With the root itself, all that can be reached is sealed.
        have hall := hafter.insert (a := root.path? fs) ?_ fun place hedge => ?_
        · have hplace := hall.mem_of_reflTransGen (.inl rfl) hreach
          exact hall.acyclic place hplace hcycle
        · rintro ⟨path, hpath, -, hactive⟩
          exact hactive (hat.active path hpath)
        · obtain ⟨name, hname, rfl⟩ := (Root.includes_iff (Root.sourceAt_outset htext)).1 hedge
          exact hincludes name hname

/-- Two files that include each other. -/
def FileSystem.ring : FileSystem where
  files := [(["a"], "include b;".toList.map fun c => UInt8.ofNat c.toNat),
    (["b"], "include a;".toList.map fun c => UInt8.ofNat c.toNat)]

example : (match (Root.file "a").compile .ring with
      | .ok _ => none
      | .error e => some e) = some (.compile (.circularInclude "a" "/a" ⟨1, 9⟩)) := by
  decide +kernel

end BinarySchema
