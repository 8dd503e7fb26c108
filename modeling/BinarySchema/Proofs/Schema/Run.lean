import BinarySchema.Proofs.Except
import BinarySchema.Proofs.FileSystem.Paths
import BinarySchema.Proofs.Schema.Extent

/-!
# Runs of a compilation

A compilation without bounds: a source is read declaration by declaration, and an included source is
read to its end before the source goes on that includes it. A run lists the paths of the sources that it
reads, in the order in which they are met.

Every path is met at most once, and every path that is met is one of a file. So the number of files
bounds the levels of inclusion, and a compilation that counts its levels and its steps does what the run
does (`exists_run`). The result of a run is unique, so statements about compilations are proved by
induction on runs.
-/

namespace BinarySchema

namespace Draft

open Reader (Declaration declaration?)

variable {fs : FileSystem} {standing : Standing} {draft : Draft}

/-! ### Include directives -/

section

variable {token : Token} {name : String}

/-- The checks of an include directive in their order. -/
theorem includeTarget_eq (path : Path) (hpath : path = Path.resolve standing.directory name) :
    includeTarget fs standing draft token name =
      if name.toList.contains '\x00' || path.text.toList.contains '\x00' then .error .nulInPath
      else if standing.active.contains path then
        .error (.circularInclude name path.text token.pos)
      else if draft.included.contains path then .ok none
      else match fs.contentAt path with
        | .error e => .error (.inaccessible e)
        | .ok none => .error (.missingInclude path.text token.pos)
        | .ok (some content) =>
          match textOfContent content with
          | .error reason => .error (.unreadableInclude path.text reason token.pos)
          | .ok text => .ok (some (path, text)) := by
  subst hpath
  unfold includeTarget
  dsimp only
  split
  · rfl
  split
  · rfl
  split
  · rfl
  · cases fs.contentAt (Path.resolve standing.directory name) with
    | error e => rfl
    | ok content =>
      cases content with
      | none => rfl
      | some content =>
        dsimp only [Except.mapError, bind, Except.bind]
        cases textOfContent content <;> rfl

theorem includeTarget_none (h : includeTarget fs standing draft token name = .ok none) :
    Path.resolve standing.directory name ∉ standing.active ∧
      Path.resolve standing.directory name ∈ draft.included := by
  rw [includeTarget_eq _ rfl] at h
  split at h
  · cases h
  split at h
  · cases h
  rename_i hactive
  split at h
  · rename_i hincluded
    exact ⟨fun hmem => hactive (List.contains_iff_mem.2 hmem), List.contains_iff_mem.1 hincluded⟩
  · split at h
    · cases h
    · cases h
    · split at h <;> cases h

theorem includeTarget_some {path : Path} {text : String}
    (h : includeTarget fs standing draft token name = .ok (some (path, text))) :
    path = Path.resolve standing.directory name ∧ path ∉ standing.active ∧ path ∉ draft.included ∧
      fs.textAt path = some text := by
  rw [includeTarget_eq _ rfl] at h
  split at h
  · cases h
  split at h
  · cases h
  rename_i hactive
  split at h
  · cases h
  rename_i hincluded
  split at h
  · cases h
  · cases h
  · rename_i content hcontent
    split at h
    · cases h
    · rename_i hread
      cases h
      refine ⟨rfl, fun hmem => hactive (List.contains_iff_mem.2 hmem),
        fun hmem => hincluded (List.contains_iff_mem.2 hmem), ?_⟩
      rw [FileSystem.textAt, hcontent]
      dsimp only
      rw [hread]
      rfl

theorem includeTarget_circular {other shown : String} {pos : Position}
    (h : includeTarget fs standing draft token name = .error (.circularInclude other shown pos)) :
    Path.resolve standing.directory name ∈ standing.active := by
  rw [includeTarget_eq _ rfl] at h
  split at h
  · cases h
  split at h
  · rename_i hactive
    exact List.contains_iff_mem.1 hactive
  split at h
  · cases h
  · split at h
    · cases h
    · cases h
    · split at h <;> cases h

end

variable {keyword : Token} {declared : Declaration}

/-- Only an include directive leads to another source, and to one that is not met yet. -/
theorem effect_enters {path : Path} {text : String}
    (h : effect fs standing draft keyword declared = .ok (.enters path text)) :
    ∃ token name, declared = .inclusion token name ∧ path = Path.resolve standing.directory name ∧
      path ∉ standing.active ∧ path ∉ draft.included ∧ fs.textAt path = some text := by
  cases declared with
  | definition d => cases h
  | root body =>
    unfold effect at h
    dsimp only at h
    split at h
    · cases h
    · split at h <;> cases h
  | inclusion token name =>
    obtain ⟨target, htarget, hgoes⟩ := Except.map_ok_iff.1 h
    cases target with
    | none => cases hgoes
    | some file =>
      obtain ⟨_, _⟩ := file
      cases hgoes
      exact ⟨token, name, rfl, includeTarget_some htarget⟩

/-- A declaration behind which the source goes on keeps the paths that are met. -/
theorem effect_goes {after : Draft} (h : effect fs standing draft keyword declared = .ok (.goes after))
    (hopen : draft.types.Open) : after.types.Open ∧ after.included = draft.included := by
  cases declared with
  | definition d =>
    cases h
    exact ⟨hopen.grow d, rfl⟩
  | root body =>
    unfold effect at h
    dsimp only at h
    split at h
    · cases h
      exact ⟨hopen, rfl⟩
    · split at h <;> cases h
      exact ⟨hopen, rfl⟩
  | inclusion token name =>
    obtain ⟨target, -, hgoes⟩ := Except.map_ok_iff.1 h
    cases target <;> cases hgoes
    exact ⟨hopen, rfl⟩

theorem effect_inclusion_goes {after : Draft} {token : Token} {name : String}
    (h : effect fs standing draft keyword (.inclusion token name) = .ok (.goes after)) :
    Path.resolve standing.directory name ∉ standing.active ∧
      Path.resolve standing.directory name ∈ draft.included := by
  obtain ⟨target, htarget, hgoes⟩ := Except.map_ok_iff.1 h
  cases target with
  | none => exact includeTarget_none htarget
  | some file => cases hgoes

theorem effect_error {e : CompileError} (h : effect fs standing draft keyword declared = .error e) :
    e = .secondRoot keyword ∨
      ∃ token name, declared = .inclusion token name ∧
        includeTarget fs standing draft token name = .error e := by
  cases declared with
  | definition d => cases h
  | root body =>
    unfold effect at h
    dsimp only at h
    split at h
    · cases h
    · split at h <;> cases h
      exact .inl rfl
  | inclusion token name => exact .inr ⟨token, name, rfl, Except.map_error_iff.1 h⟩

theorem effect_circular {name shown : String} {pos : Position}
    (h : effect fs standing draft keyword declared = .error (.circularInclude name shown pos)) :
    ∃ token other, declared = .inclusion token other ∧
      Path.resolve standing.directory other ∈ standing.active := by
  rcases effect_error h with hsecond | ⟨token, other, rfl, htarget⟩
  · cases hsecond
  · exact ⟨token, other, rfl, includeTarget_circular htarget⟩

/-! ### Runs -/

/-- A run over the declarations of a source. -/
inductive Run (fs : FileSystem) :
    Standing → Draft → Cursor → List Path → Except CompileError Draft → Prop
  | failed {standing draft c e} (read : declaration? draft.types c = .error e) :
      Run fs standing draft c [] (.error e)
  | ended {standing draft c d} (read : declaration? draft.types c = .ok (none, d)) :
      Run fs standing draft c [] (.ok draft)
  | refused {standing draft c d keyword declared e}
      (read : declaration? draft.types c = .ok (some (keyword, declared), d))
      (effect : effect fs standing draft keyword declared = .error e) :
      Run fs standing draft c [] (.error e)
  | went {standing draft c d keyword declared after met result}
      (read : declaration? draft.types c = .ok (some (keyword, declared), d))
      (effect : effect fs standing draft keyword declared = .ok (.goes after))
      (rest : Run fs standing after d met result) :
      Run fs standing draft c met result
  | broken {standing draft c d keyword declared path text inner e}
      (read : declaration? draft.types c = .ok (some (keyword, declared), d))
      (effect : effect fs standing draft keyword declared = .ok (.enters path text))
      (inside : Run fs (standing.inside path) (draft.meets path) (.scan text) inner (.error e)) :
      Run fs standing draft c (path :: inner) (.error e)
  | entered {standing draft c d keyword declared path text inner after met result}
      (read : declaration? draft.types c = .ok (some (keyword, declared), d))
      (effect : effect fs standing draft keyword declared = .ok (.enters path text))
      (inside : Run fs (standing.inside path) (draft.meets path) (.scan text) inner (.ok after))
      (rest : Run fs standing after d met result) :
      Run fs standing draft c (path :: inner ++ met) result

namespace Run

variable {c : Cursor} {met : List Path} {result : Except CompileError Draft}

/-- A run has one result. -/
theorem unique {met' : List Path} {result' : Except CompileError Draft}
    (h : Run fs standing draft c met result) (h' : Run fs standing draft c met' result') :
    met = met' ∧ result = result' := by
  induction h generalizing met' result' with
  | failed read => cases h' <;> simp_all
  | ended read => cases h' <;> simp_all
  | refused read effect => cases h' <;> simp_all
  | went read effect rest ih =>
    cases h' with
    | went read' effect' rest' =>
      cases read.symm.trans read'
      cases effect.symm.trans effect'
      exact ih rest'
    | failed | ended | refused | broken | entered => simp_all
  | broken read effect inside ih =>
    cases h' with
    | broken read' effect' inside' =>
      cases read.symm.trans read'
      cases effect.symm.trans effect'
      obtain ⟨rfl, hresult⟩ := ih inside'
      exact ⟨rfl, hresult⟩
    | entered read' effect' inside' =>
      cases read.symm.trans read'
      cases effect.symm.trans effect'
      exact nomatch (ih inside').2
    | failed | ended | refused | went => simp_all
  | entered read effect inside rest ih ih' =>
    cases h' with
    | broken read' effect' inside' =>
      cases read.symm.trans read'
      cases effect.symm.trans effect'
      exact nomatch (ih inside').2
    | entered read' effect' inside' rest' =>
      cases read.symm.trans read'
      cases effect.symm.trans effect'
      obtain ⟨rfl, hafter⟩ := ih inside'
      cases hafter
      obtain ⟨rfl, hresult⟩ := ih' rest'
      exact ⟨rfl, hresult⟩
    | failed | ended | refused | went => simp_all

/-- The draft of a run that comes to a result has met the paths of the run. -/
theorem ok_included {after : Draft} (h : Run fs standing draft c met (.ok after))
    (hopen : draft.types.Open) :
    after.types.Open ∧ after.included = met.reverse ++ draft.included := by
  generalize hresult : Except.ok after = result at h
  induction h generalizing after with
  | failed read => cases hresult
  | ended read =>
    cases hresult
    exact ⟨hopen, rfl⟩
  | refused read effect => cases hresult
  | went read effect rest ih =>
    obtain ⟨hbetween, hincluded⟩ := effect_goes effect hopen
    rw [← hincluded]
    exact ih hbetween hresult
  | broken read effect inside ih => cases hresult
  | entered read effect inside rest ih ih' =>
    obtain ⟨hbetween, hinside⟩ := ih hopen rfl
    obtain ⟨hafter, hincluded⟩ := ih' hbetween hresult
    refine ⟨hafter, ?_⟩
    rw [hincluded, hinside, meets]
    simp

theorem included_subset {after : Draft} (h : Run fs standing draft c met (.ok after))
    (hopen : draft.types.Open) : draft.included ⊆ after.included := by
  rw [(h.ok_included hopen).2]
  exact List.subset_append_right _ _

/-- A run meets paths that were not met, and each of them once. -/
theorem met_nodup (h : Run fs standing draft c met result) (hopen : draft.types.Open) :
    met.Nodup ∧ ∀ path ∈ met, path ∉ draft.included := by
  have hmeets {draft : Draft} {path : Path} {inner : List Path} (hnew : path ∉ draft.included)
      (hinner : inner.Nodup ∧ ∀ other ∈ inner, other ∉ (draft.meets path).included) :
      (path :: inner).Nodup ∧ ∀ other ∈ path :: inner, other ∉ draft.included := by
    obtain ⟨hnodup, hinside⟩ := hinner
    refine ⟨List.nodup_cons.2 ⟨fun hmem => hinside path hmem List.mem_cons_self, hnodup⟩, ?_⟩
    refine List.forall_mem_cons.2 ⟨hnew, fun other hother hmem => ?_⟩
    exact hinside other hother (List.mem_cons_of_mem _ hmem)
  induction h with
  | failed | ended | refused => exact ⟨List.nodup_nil, nofun⟩
  | went read effect rest ih =>
    obtain ⟨hbetween, hincluded⟩ := effect_goes effect hopen
    rw [← hincluded]
    exact ih hbetween
  | broken read effect inside ih =>
    obtain ⟨_, _, -, -, -, hnew, -⟩ := effect_enters effect
    exact hmeets hnew (ih hopen)
  | @entered _ draft _ _ _ _ path _ inner between met _ read effect inside rest ih ih' =>
    obtain ⟨_, _, -, -, -, hnew, -⟩ := effect_enters effect
    obtain ⟨hnodup, hfirst⟩ := hmeets hnew (ih hopen)
    obtain ⟨hbetween, hincluded⟩ := ok_included inside hopen
    obtain ⟨hnodup', hrest⟩ := ih' hbetween
    -- What the rest meets is not among the paths that the included source has met.
    have hapart (other : Path) (hother : other ∈ met) :
        other ∉ path :: inner ∧ other ∉ draft.included := by
      have hnew := hrest other hother
      rw [hincluded, List.mem_append, List.mem_reverse, not_or] at hnew
      obtain ⟨hinner, houter⟩ := hnew
      have hpath : other ∉ path :: draft.included := houter
      rw [List.mem_cons, not_or] at hpath ⊢
      exact ⟨⟨hpath.1, hinner⟩, hpath.2⟩
    refine ⟨List.nodup_append.2 ⟨hnodup, hnodup', ?_⟩, ?_⟩
    · rintro other hother _ hmem rfl
      exact (hapart other hmem).1 hother
    · exact List.forall_mem_append.2 ⟨hfirst, fun other hother => (hapart other hother).2⟩

end Run

theorem length_lt_of_declaration? {types : TypeTable} {c d : Cursor} {read : Token × Declaration}
    (h : declaration? types c = .ok (some read, d)) : d.tokens.length < c.tokens.length := by
  obtain ⟨used, hc, hcloses, -⟩ := Reader.declaration?_some h
  cases used with
  | nil => exact hcloses.elim
  | cons token rest =>
    rw [hc, List.length_append, List.length_cons]
    omega

section

variable {enter : Standing → Cursor → Draft → Except CompileError Draft} {c d : Cursor}

theorem declarations_of_error {e : CompileError} (hopen : draft.types.Open) (steps : Nat)
    (h : declaration? draft.types c = .error e) :
    declarations fs enter standing (steps + 1) draft c = .error e := by
  rw [declarations_succ hopen, Reader.bind_run, h]
  rfl

theorem declarations_of_none (hopen : draft.types.Open) (steps : Nat)
    (h : declaration? draft.types c = .ok (none, d)) :
    declarations fs enter standing (steps + 1) draft c = .ok (draft, d) := by
  rw [declarations_succ hopen, Reader.bind_of_ok h]
  rfl

theorem declarations_of_some (hopen : draft.types.Open) (steps : Nat)
    (h : declaration? draft.types c = .ok (some (keyword, declared), d)) :
    declarations fs enter standing (steps + 1) draft c =
      (effect fs standing draft keyword declared >>= carry enter standing draft >>= fun after =>
        declarations fs enter standing steps after d) := by
  rw [declarations_succ hopen, Reader.bind_of_ok h]
  dsimp only
  cases effect fs standing draft keyword declared >>= carry enter standing draft <;> rfl

theorem declarations_of_enters {path : Path} {text : String} (hopen : draft.types.Open) (steps : Nat)
    (h : declaration? draft.types c = .ok (some (keyword, declared), d))
    (heffect : effect fs standing draft keyword declared = .ok (.enters path text)) :
    declarations fs enter standing (steps + 1) draft c =
      (enter (standing.inside path) (.scan text) (draft.meets path) >>= fun after =>
        declarations fs enter standing steps after d) := by
  rw [declarations_of_some hopen steps h, heffect]
  rfl

end

/-- What a compilation does with bounds for its levels and steps is a run. -/
theorem exists_run {levels : Nat} (hlevels : fs.unmet draft.included < levels)
    (hopen : draft.types.Open) (c : Cursor) :
    ∃ met, Run fs standing draft c met (read fs levels standing c draft) := by
  induction levels generalizing standing draft c with
  | zero => omega
  | succ levels ih =>
    have hdeclarations (steps : Nat) : ∀ (draft : Draft) (c : Cursor),
        fs.unmet draft.included ≤ levels → draft.types.Open → c.tokens.length < steps →
          ∃ met, Run fs standing draft c met
            ((declarations fs (read fs levels) standing steps draft c).map Prod.fst) := by
      induction steps with
      | zero =>
        intro draft c _ _ hsteps
        omega
      | succ steps ih' =>
        intro draft c hunmet hopen hsteps
        cases hread : declaration? draft.types c with
        | error e =>
          rw [declarations_of_error hopen steps hread]
          exact ⟨[], .failed hread⟩
        | ok result =>
          obtain ⟨_ | ⟨keyword, declared⟩, d⟩ := result
          · rw [declarations_of_none hopen steps hread]
            exact ⟨[], .ended hread⟩
          have hless := length_lt_of_declaration? hread
          have hbehind : d.tokens.length < steps := by omega
          cases heffect : effect fs standing draft keyword declared with
          | error e =>
            rw [declarations_of_some hopen steps hread, heffect]
            exact ⟨[], .refused hread heffect⟩
          | ok next =>
            cases next with
            | goes after =>
              rw [declarations_of_some hopen steps hread, heffect]
              obtain ⟨hafter, hincluded⟩ := effect_goes heffect hopen
              obtain ⟨met, hrest⟩ := ih' after d (hincluded ▸ hunmet) hafter hbehind
              exact ⟨met, .went hread heffect hrest⟩
            | enters path text =>
              obtain ⟨_, _, -, hpath, -, hnew, htext⟩ := effect_enters heffect
              have hfile := FileSystem.mem_files_of_textAt (hpath ▸ Path.resolve_normal _ _) htext
              have hfewer : fs.unmet (draft.meets path).included < fs.unmet draft.included :=
                FileSystem.unmet_cons_lt hfile hnew
              have hinside : ∃ inner, Run fs (standing.inside path) (draft.meets path) (.scan text)
                  inner (read fs levels (standing.inside path) (.scan text) (draft.meets path)) :=
                ih (Nat.lt_of_lt_of_le hfewer hunmet) hopen (.scan text)
              obtain ⟨inner, hinside⟩ := hinside
              cases hresult : read fs levels (standing.inside path) (.scan text) (draft.meets path) with
              | error e =>
                rw [hresult] at hinside
                refine ⟨path :: inner, ?_⟩
                rw [declarations_of_enters hopen steps hread heffect, hresult]
                exact .broken hread heffect hinside
              | ok after =>
                rw [hresult] at hinside
                have hkept := hinside.included_subset hopen
                have hfewer' : fs.unmet after.included < levels :=
                  Nat.lt_of_le_of_lt (FileSystem.unmet_anti fs hkept)
                    (Nat.lt_of_lt_of_le hfewer hunmet)
                have hafter := (hinside.ok_included hopen).1
                obtain ⟨met, hrest⟩ := ih' after d (Nat.le_of_lt hfewer') hafter hbehind
                refine ⟨path :: inner ++ met, ?_⟩
                rw [declarations_of_enters hopen steps hread heffect, hresult]
                exact .entered hread heffect hinside hrest
    exact hdeclarations _ draft c (by omega) hopen (Nat.lt_succ_self _)

end Draft

namespace Schema

/-- Where a text stands that is compiled. -/
def outset (fs : FileSystem) : (directory : Option String) → Standing
  | none => ⟨fs.workingDirectory, [], true⟩
  | some name => ⟨Path.resolve fs.workingDirectory name, [], true⟩

theorem exists_run (fs : FileSystem) (text : String) (directory : Option String) :
    ∃ met result, Draft.Run fs (outset fs directory) {} (.scan text) met result ∧
      compile fs text directory = result.map (·.finish none) := by
  have hlevels : fs.unmet ({} : Draft).included < fs.files.length + 1 :=
    Nat.lt_succ_of_le (fs.unmet_le _)
  have hrun : ∃ met, Draft.Run fs (outset fs directory) {} (.scan text) met
      (Draft.read fs (fs.files.length + 1) (outset fs directory) (.scan text) {}) :=
    Draft.exists_run hlevels .empty (.scan text)
  obtain ⟨met, hrun⟩ := hrun
  refine ⟨met, _, hrun, ?_⟩
  cases directory <;> rfl

end Schema

/-! ### Roots -/

/-- What is compiled: a text with the directory of its includes, or a file. -/
inductive Root where
  | source (text : String) (directory : Option String)
  | file (name : String)

namespace Root

variable (fs : FileSystem) (root : Root)

def compile : Root → Except SchemaFileError Schema
  | .source text directory => (Schema.compile fs text directory).mapError .compile
  | .file name => Schema.compileFile fs name

def name? : Root → Option String
  | .source _ _ => none
  | .file name => some (shortName name)

/-- The resolved path of a root file. -/
def path? : Root → Option Path
  | .source _ _ => none
  | .file name => some (Path.resolve fs.workingDirectory (shortName name))

def directory : Root → Path
  | .source _ none => fs.workingDirectory
  | .source _ (some name) => Path.resolve fs.workingDirectory name
  | .file name => (Path.resolve fs.workingDirectory (shortName name)).parent

def readText : Root → Except TextFileError String
  | .source text _ => .ok text
  | .file name => fs.readText (shortName name)

/-- Where the root stands. -/
def standing : Standing := ⟨root.directory fs, (root.path? fs).toList, true⟩

/-- The draft when the root is met. -/
def draft : Draft := { included := (root.path? fs).toList }

variable {fs root}

theorem compile_of_error {e : TextFileError} (h : root.readText fs = .error e) :
    root.compile fs = .error (.file e) := by
  cases root with
  | source text directory => cases h
  | file name =>
    have hread : fs.readText (shortName name) = .error e := h
    unfold compile Schema.compileFile
    dsimp only
    rw [hread]
    rfl

theorem compile_of_ok {text : String} (h : root.readText fs = .ok text) :
    root.compile fs = ((Draft.read fs (fs.files.length + 1) (root.standing fs) (.scan text)
      (root.draft fs)).map (·.finish root.name?)).mapError .compile := by
  cases root with
  | source _ directory =>
    cases h
    cases directory <;> rfl
  | file name =>
    have hread : fs.readText (shortName name) = .ok text := h
    unfold compile Schema.compileFile
    dsimp only
    rw [hread]
    change (Draft.read fs _ (standing fs (.file name)) _ (draft fs (.file name))).mapError _ >>= _ = _
    cases Draft.read fs (fs.files.length + 1) (standing fs (.file name)) (.scan text)
      (draft fs (.file name)) <;> rfl

/-- Compiling a root whose text can be had is a run over the text. -/
theorem exists_run {text : String} (h : root.readText fs = .ok text) :
    ∃ met result, Draft.Run fs (root.standing fs) (root.draft fs) (.scan text) met result ∧
      root.compile fs = (result.map (·.finish root.name?)).mapError .compile := by
  have hlevels : fs.unmet (root.draft fs).included < fs.files.length + 1 :=
    Nat.lt_succ_of_le (fs.unmet_le _)
  have hrun : ∃ met, Draft.Run fs (root.standing fs) (root.draft fs) (.scan text) met
      (Draft.read fs (fs.files.length + 1) (root.standing fs) (.scan text) (root.draft fs)) :=
    Draft.exists_run hlevels .empty (.scan text)
  obtain ⟨met, hrun⟩ := hrun
  exact ⟨met, _, hrun, compile_of_ok h⟩

end Root

end BinarySchema
