import BinarySchema.Proofs.Schema.References

/-!
# Declared names

The names that the definitions of a compiled schema declare, their own ones and those of the members of
enums and bitfields, are identifiers. In particular there is no point in them, so that a dotted word splits
into the name of a definition and what is behind it.

A declaration takes its names from tokens that it has tested, and gives them to one definition, which every
later declaration keeps.
-/

namespace BinarySchema

namespace Definition

def memberNames : Definition → List String
  | .struct _ => []
  | .enum d => d.members.map (·.name)
  | .bitfield d => d.members.map (·.name)

/-- That a definition and its members are called by identifiers. -/
structure PlainNames (definition : Definition) : Prop where
  name : Lexeme.isIdentifier definition.name.toList = true
  members : ∀ name ∈ definition.memberNames, Lexeme.isIdentifier name.toList = true

end Definition

/-! ### Readers -/

namespace Reader

variable {types : TypeTable} {c d : Cursor} {token : Token}

theorem isIdentifier_of_isPlainName (h : isPlainName token = true) :
    Lexeme.isIdentifier token.text.toList = true := by
  rw [isPlainName, Bool.and_eq_true] at h
  exact h.2

theorem expectName_isIdentifier {what : String} (h : expectName what c = .ok (token, d)) :
    Lexeme.isIdentifier token.text.toList = true := by
  obtain ⟨read, c₁, -, hread⟩ := bind_ok_iff.1 h
  by_cases hplain : isPlainName read = true
  · rw [if_pos hplain] at hread
    obtain ⟨rfl, -⟩ := pure_ok_iff.1 hread
    exact isIdentifier_of_isPlainName hplain
  · rw [if_neg hplain] at hread
    exact (throw_ok_iff.1 hread).elim

theorem freshName_isIdentifier (h : freshName types c = .ok (token, d)) :
    Lexeme.isIdentifier token.text.toList = true := by
  obtain ⟨name, c₁, hname, hfree⟩ := bind_ok_iff.1 h
  obtain ⟨-, hpure⟩ := refuse_ok_iff.1 hfree
  obtain ⟨rfl, -⟩ := pure_ok_iff.1 hpure
  exact expectName_isIdentifier hname

theorem moreNames_isIdentifier {steps : Nat} {names : List Token}
    (h : moreNames steps c = .ok (names, d)) :
    ∀ name ∈ names, Lexeme.isIdentifier name.text.toList = true := by
  induction steps generalizing c d names with
  | zero => exact (unexpectedEnd_ok_iff.1 h).elim
  | succ steps ih =>
    unfold moreNames at h
    obtain ⟨mark, c₁, -, hcolon⟩ := bind_ok_iff.1 h
    by_cases hend : mark.isPunctuation ":" = true
    · rw [if_pos hend] at hcolon
      obtain ⟨rfl, -⟩ := pure_ok_iff.1 hcolon
      exact nofun
    rw [if_neg hend] at hcolon
    obtain ⟨-, hread⟩ := refuse_ok_iff.1 hcolon
    obtain ⟨name, c₂, hname, hmore⟩ := bind_ok_iff.1 hread
    obtain ⟨rest, c₃, hrest, hpure⟩ := bind_ok_iff.1 hmore
    obtain ⟨rfl, -⟩ := pure_ok_iff.1 hpure
    exact List.forall_mem_cons.2 ⟨expectName_isIdentifier hname, ih hrest⟩

theorem fieldDeclaration_isIdentifier {first : Token} {fields : List Field}
    (h : fieldDeclaration types first c = .ok (fields, d)) :
    ∀ field ∈ fields, Lexeme.isIdentifier field.name.toList = true := by
  unfold fieldDeclaration at h
  obtain ⟨hplain, hnames⟩ := refuse_ok_iff.1 h
  obtain ⟨steps, c₁, -, hmore⟩ := bind_ok_iff.1 hnames
  obtain ⟨more, c₂, hread, htoken⟩ := bind_ok_iff.1 hmore
  obtain ⟨token, c₃, -, hword⟩ := bind_ok_iff.1 htoken
  obtain ⟨-, htype⟩ := refuse_ok_iff.1 hword
  obtain ⟨type, c₄, -, hlength⟩ := bind_ok_iff.1 htype
  obtain ⟨length, c₅, -, hcomment⟩ := bind_ok_iff.1 hlength
  obtain ⟨comment, c₆, -, hpure⟩ := bind_ok_iff.1 hcomment
  obtain ⟨rfl, -⟩ := pure_ok_iff.1 hpure
  have hfirst := isIdentifier_of_isPlainName (by simpa using hplain)
  exact List.forall_mem_map.2 (List.forall_mem_cons.2 ⟨hfirst, moreNames_isIdentifier hread⟩)

/-- Behind the value of an enum's member stand more members or the closing brace. -/
theorem enumRest_isIdentifier {x : Int → Token → Reader (List EnumMember)}
    (hx : ∀ {value token c members d}, x value token c = .ok (members, d) →
      ∀ member ∈ members, Lexeme.isIdentifier member.name.toList = true)
    {name : String} (hname : Lexeme.isIdentifier name.toList = true) {own : Int} {mark : Token}
    {members : List EnumMember}
    (h : (if mark.isPunctuation "," then
        next >>= fun token => x (own + 1) token >>= fun rest => pure (⟨name, own⟩ :: rest)
      else if mark.isPunctuation "\x7d" then pure [⟨name, own⟩]
      else unexpected "[,] or [\x7d]" mark >>= fun rest => pure (⟨name, own⟩ :: rest)) c
        = .ok (members, d)) :
    ∀ member ∈ members, Lexeme.isIdentifier member.name.toList = true := by
  by_cases hcomma : mark.isPunctuation "," = true
  · rw [if_pos hcomma] at h
    obtain ⟨token, c₁, -, hmembers⟩ := bind_ok_iff.1 h
    obtain ⟨rest, c₂, hrest, hpure⟩ := bind_ok_iff.1 hmembers
    obtain ⟨rfl, -⟩ := pure_ok_iff.1 hpure
    exact List.forall_mem_cons.2 ⟨hname, hx hrest⟩
  rw [if_neg hcomma] at h
  by_cases hclose : mark.isPunctuation "\x7d" = true
  · rw [if_pos hclose] at h
    obtain ⟨rfl, -⟩ := pure_ok_iff.1 h
    exact List.forall_mem_singleton.2 hname
  · rw [if_neg hclose] at h
    obtain ⟨_, _, hthrow, -⟩ := bind_ok_iff.1 h
    exact (throw_ok_iff.1 hthrow).elim

theorem enumMembers_isIdentifier {steps : Nat} {value : Int} {members : List EnumMember}
    (h : enumMembers steps value token c = .ok (members, d)) :
    ∀ member ∈ members, Lexeme.isIdentifier member.name.toList = true := by
  induction steps generalizing value token c d members with
  | zero => exact (unexpectedEnd_ok_iff.1 h).elim
  | succ steps ih =>
    unfold enumMembers at h
    by_cases hclose : token.isPunctuation "\x7d" = true
    · rw [if_pos hclose] at h
      obtain ⟨rfl, -⟩ := pure_ok_iff.1 h
      exact nofun
    rw [if_neg hclose] at h
    obtain ⟨hplain, hmark⟩ := refuse_ok_iff.1 h
    have hname := isIdentifier_of_isPlainName (by simpa using hplain)
    obtain ⟨mark, c₁, -, hvalue⟩ := bind_ok_iff.1 hmark
    -- The value is written or counted; what follows it is read in the same way.
    by_cases hequals : mark.isOperator "=" = true
    · rw [if_pos hequals] at hvalue
      obtain ⟨own, c₂, -, hbehind⟩ := bind_ok_iff.1 hvalue
      obtain ⟨behind, c₃, -, hrest⟩ := bind_ok_iff.1 hbehind
      rw [pure_bind] at hrest
      exact enumRest_isIdentifier (x := enumMembers steps) ih hname hrest
    · rw [if_neg hequals, pure_bind] at hvalue
      exact enumRest_isIdentifier (x := enumMembers steps) ih hname hvalue

theorem bitfieldMembers_isIdentifier {steps : Nat} {members : List BitfieldMember}
    (h : bitfieldMembers steps c = .ok (members, d)) :
    ∀ member ∈ members, Lexeme.isIdentifier member.name.toList = true := by
  induction steps generalizing c d members with
  | zero => exact (unexpectedEnd_ok_iff.1 h).elim
  | succ steps ih =>
    unfold bitfieldMembers at h
    obtain ⟨token, c₁, -, hclose⟩ := bind_ok_iff.1 h
    by_cases hbrace : token.isPunctuation "\x7d" = true
    · rw [if_pos hbrace] at hclose
      obtain ⟨rfl, -⟩ := pure_ok_iff.1 hclose
      exact nofun
    rw [if_neg hbrace] at hclose
    obtain ⟨hplain, hcolon⟩ := refuse_ok_iff.1 hclose
    have hname := isIdentifier_of_isPlainName (by simpa using hplain)
    obtain ⟨colon, c₂, -, hwidth⟩ := bind_ok_iff.1 hcolon
    obtain ⟨width, c₃, -, hend⟩ := bind_ok_iff.1 hwidth
    obtain ⟨semicolon, c₄, -, hcomment⟩ := bind_ok_iff.1 hend
    obtain ⟨comment, c₅, -, hmore⟩ := bind_ok_iff.1 hcomment
    obtain ⟨rest, c₆, hrest, hpure⟩ := bind_ok_iff.1 hmore
    obtain ⟨rfl, -⟩ := pure_ok_iff.1 hpure
    exact List.forall_mem_cons.2 ⟨hname, ih hrest⟩

theorem structDeclaration_plainNames {after : TypeTable}
    (h : structDeclaration types c = .ok (after, d))
    (htypes : ∀ definition ∈ types.definitions, definition.PlainNames) :
    ∀ definition ∈ after.definitions, definition.PlainNames := by
  obtain ⟨name, c₁, hname, hbody⟩ := bind_ok_iff.1 h
  obtain ⟨members, c₂, -, hpure⟩ := bind_ok_iff.1 hbody
  obtain ⟨rfl, -⟩ := pure_ok_iff.1 hpure
  refine forall_define ?_ ⟨freshName_isIdentifier hname, nofun⟩
  rwa [definitions_reserve]

theorem enumDeclaration_plainNames {after : TypeTable} (h : enumDeclaration types c = .ok (after, d))
    (htypes : ∀ definition ∈ types.definitions, definition.PlainNames) :
    ∀ definition ∈ after.definitions, definition.PlainNames := by
  obtain ⟨name, c₁, hname, hcolon⟩ := bind_ok_iff.1 h
  obtain ⟨colon, c₂, -, hbase⟩ := bind_ok_iff.1 hcolon
  obtain ⟨base, c₃, -, hbrace⟩ := bind_ok_iff.1 hbase
  obtain ⟨brace, c₄, -, hsteps⟩ := bind_ok_iff.1 hbrace
  obtain ⟨steps, c₅, -, hfirst⟩ := bind_ok_iff.1 hsteps
  obtain ⟨first, c₆, -, hmembers⟩ := bind_ok_iff.1 hfirst
  obtain ⟨members, c₇, hread, hpure⟩ := bind_ok_iff.1 hmembers
  obtain ⟨rfl, -⟩ := pure_ok_iff.1 hpure
  exact forall_define htypes
    ⟨freshName_isIdentifier hname, List.forall_mem_map.2 (enumMembers_isIdentifier hread)⟩

theorem bitfieldDeclaration_plainNames {after : TypeTable}
    (h : bitfieldDeclaration types c = .ok (after, d))
    (htypes : ∀ definition ∈ types.definitions, definition.PlainNames) :
    ∀ definition ∈ after.definitions, definition.PlainNames := by
  obtain ⟨name, c₁, hname, hcolon⟩ := bind_ok_iff.1 h
  obtain ⟨colon, c₂, -, hbase⟩ := bind_ok_iff.1 hcolon
  obtain ⟨base, c₃, -, hbrace⟩ := bind_ok_iff.1 hbase
  obtain ⟨brace, c₄, -, hsteps⟩ := bind_ok_iff.1 hbrace
  obtain ⟨steps, c₅, -, hmembers⟩ := bind_ok_iff.1 hsteps
  obtain ⟨members, c₆, hread, hpure⟩ := bind_ok_iff.1 hmembers
  obtain ⟨rfl, -⟩ := pure_ok_iff.1 hpure
  exact forall_define htypes
    ⟨freshName_isIdentifier hname, List.forall_mem_map.2 (bitfieldMembers_isIdentifier hread)⟩

end Reader

/-! ### Compiled schemas -/

/-- Every declaration gives its definition plain names. -/
theorem Draft.Step.plainNames {fs : FileSystem}
    {enter : Standing → Cursor → Draft → Except CompileError Draft} {standing : Standing}
    {draft after : Draft} {keyword : Token} {c d : Cursor}
    (henter : ∀ {standing : Standing} {c : Cursor} {draft after : Draft},
      enter standing c draft = .ok after →
        (∀ definition ∈ draft.types.definitions, definition.PlainNames) →
          ∀ definition ∈ after.types.definitions, definition.PlainNames)
    (h : Step fs enter standing draft keyword c after d)
    (hdraft : ∀ definition ∈ draft.types.definitions, definition.PlainNames) :
    ∀ definition ∈ after.types.definitions, definition.PlainNames := by
  cases h with
  | entered _ _ _ run => exact henter run hdraft
  | struct _ run => exact Reader.structDeclaration_plainNames run hdraft
  | enum _ run => exact Reader.enumDeclaration_plainNames run hdraft
  | bitfield _ run => exact Reader.bitfieldDeclaration_plainNames run hdraft
  | included | checked | root => exact hdraft

theorem Schema.Compiled.plainNames {schema : Schema} (h : schema.Compiled) :
    ∀ definition ∈ schema.types.definitions, definition.PlainNames := by
  obtain ⟨fs, levels, standing, text, included, draft, source, hread, rfl⟩ := h.exists_read
  exact Draft.read_keeps (fun henter hstep => hstep.plainNames henter) hread nofun

/-! ### Fields -/

structure Draft.PlainFields (draft : Draft) : Prop where
  types : ∀ definition ∈ draft.types.definitions, ∀ declared ∈ definition.fields,
    Lexeme.isIdentifier declared.name.toList = true
  root : ∀ body ∈ draft.root, ∀ declared ∈ bodyFields body,
    Lexeme.isIdentifier declared.name.toList = true

/-- Every declaration gives its fields plain names. -/
theorem Draft.Step.plainFields {fs : FileSystem}
    {enter : Standing → Cursor → Draft → Except CompileError Draft} {standing : Standing}
    {draft after : Draft} {keyword : Token} {c d : Cursor}
    (henter : ∀ {standing : Standing} {c : Cursor} {draft after : Draft},
      enter standing c draft = .ok after → draft.PlainFields → after.PlainFields)
    (h : Step fs enter standing draft keyword c after d) (hdraft : draft.PlainFields) :
    after.PlainFields := by
  cases h with
  | entered _ _ _ run => exact henter run ⟨hdraft.types, hdraft.root⟩
  | struct _ run =>
    obtain ⟨name, c₁, -, hbody⟩ := Reader.bind_ok_iff.1 run
    obtain ⟨members, c₂, hmembers, hpure⟩ := Reader.bind_ok_iff.1 hbody
    obtain ⟨rfl, -⟩ := Reader.pure_ok_iff.1 hpure
    refine ⟨Reader.forall_define ?_ ?_, hdraft.root⟩
    · rw [Reader.definitions_reserve]
      exact hdraft.types
    · exact Reader.body_fields Reader.fieldDeclaration_isIdentifier hmembers
  | enum _ run =>
    obtain ⟨type, -, rfl⟩ := Reader.enumDeclaration_defines run
    exact ⟨Reader.forall_define hdraft.types nofun, hdraft.root⟩
  | bitfield _ run =>
    obtain ⟨type, -, rfl⟩ := Reader.bitfieldDeclaration_defines run
    exact ⟨Reader.forall_define hdraft.types nofun, hdraft.root⟩
  | root _ _ _ run =>
    refine ⟨hdraft.types, ?_⟩
    rintro _ ⟨⟩
    exact Reader.body_fields Reader.fieldDeclaration_isIdentifier run
  | included | checked => exact hdraft

theorem Schema.Compiled.plainFields {schema : Schema} (h : schema.Compiled) :
    (∀ definition ∈ schema.types.definitions, ∀ declared ∈ definition.fields,
      Lexeme.isIdentifier declared.name.toList = true) ∧
    ∀ body ∈ schema.root, ∀ declared ∈ bodyFields body,
      Lexeme.isIdentifier declared.name.toList = true := by
  obtain ⟨fs, levels, standing, text, included, draft, source, hread, rfl⟩ := h.exists_read
  have hempty : Draft.PlainFields { included } := ⟨nofun, nofun⟩
  have hdraft := Draft.read_keeps (fun henter hstep => hstep.plainFields henter) hread hempty
  exact ⟨hdraft.types, hdraft.root⟩

end BinarySchema
