import BinarySchema.Proofs.Datum.Writable
import BinarySchema.Proofs.Decode.Origins
import BinarySchema.Proofs.Schema.Identifiers
import BinarySchema.Proofs.Text.Lines

/-!
# The lines of a result tree

The text of a tree has one line for each result, in the order of the tree and indented by its depth, as
long as the comments are lines themselves: everything else that a line is made of is one. Names are
identifiers with numbers behind them, values are numbers, words or quoted text, and what is inside a
result stands on lines of its own.

A comment is written as it is, so one with a line feed in it breaks its line in two, and the text of the
tree has more lines than results. A tree with an integer that has no numeral has no text at all.
-/

namespace BinarySchema

open Text (IsLine isLine_append isLine_ofList)

/-! ### The outline of a tree -/

mutual

/-- The results inside a value at every depth, each with its depth and before the ones inside it. -/
def Datum.outline (depth : Nat) : Datum → List (Nat × Entry Datum)
  | .scope entries => Datum.entriesOutline depth entries
  | _ => []
termination_by structural value => value

def Datum.entriesOutline (depth : Nat) : List (Entry Datum) → List (Nat × Entry Datum)
  | [] => []
  | entry :: rest => Datum.entryOutline depth entry ++ Datum.entriesOutline depth rest
termination_by structural entries => entries

def Datum.entryOutline (depth : Nat) : Entry Datum → List (Nat × Entry Datum)
  | ⟨kind, name, offset, size, typeName, value, comment, raw⟩ =>
    (depth, ⟨kind, name, offset, size, typeName, value, comment, raw⟩) ::
      Datum.outline (depth + 1) value
termination_by structural entry => entry

end

/-- The results of a tree, the outermost ones at the given depth. -/
def Scope.outline (fields : Scope) (depth : Nat) : List (Nat × Result) :=
  Datum.entriesOutline depth fields

mutual

theorem Datum.map_outline (depth : Nat) : ∀ value : Datum,
    (value.outline depth).map Prod.snd = value.inner
  | .scope entries => Datum.map_entriesOutline depth entries
  | .null | .bool _ | .int _ | .double _ | .text _ | .codes _ | .bytes _ | .address _ | .date _ | .time _
  | .list _ | .map _ => rfl
termination_by structural value => value

theorem Datum.map_entriesOutline (depth : Nat) : ∀ entries : List (Entry Datum),
    (Datum.entriesOutline depth entries).map Prod.snd = Datum.entriesInner entries
  | [] => rfl
  | entry :: rest => by
    rw [entriesOutline, entriesInner, List.map_append, map_entryOutline, map_entriesOutline]
termination_by structural entries => entries

theorem Datum.map_entryOutline (depth : Nat) : ∀ entry : Entry Datum,
    (Datum.entryOutline depth entry).map Prod.snd = Datum.entryInner entry
  | ⟨kind, name, offset, size, typeName, value, comment, raw⟩ => by
    rw [entryOutline, entryInner, List.map_cons, map_outline]
termination_by structural entry => entry

end

theorem Scope.map_outline (fields : Scope) (depth : Nat) :
    (fields.outline depth).map Prod.snd = fields.everywhere :=
  Datum.map_entriesOutline depth fields

/-! ### The line of a result -/

def Entry.shown (result : Result) : String :=
  if result.value.isScope then "" else ": " ++ (result.value.plain false).literal

/-- The line of a result at a depth. It is one line if the comment is. -/
def Entry.line (result : Result) (depth : Nat) : String :=
  String.ofList (List.replicate (2 * depth) ' ') ++ result.header ++ result.shown ++
    commentSuffix result.comment

/-- That a line is of a result at a depth: it begins with two spaces for each level and the name. -/
def Entry.Heads (result : Result) (depth : Nat) (line : List Char) : Prop :=
  List.replicate (2 * depth) ' ' ++ result.name.toList ++ [' ', '<'] <+: line

theorem Entry.heads_line (result : Result) (depth : Nat) :
    result.Heads depth (result.line depth).toList := by
  refine ⟨result.typeName.toList ++ (s!"> @{result.offset} +{result.size}" ++ result.shown ++
    commentSuffix result.comment).toList, ?_⟩
  simp [line, header, toString]

mutual

theorem Datum.treeLines_eq (depth : Nat) : ∀ value : Datum,
    value.treeLines depth = (value.outline depth).map fun place => place.2.line place.1
  | .scope entries => Datum.treeEntries_eq depth entries
  | .null | .bool _ | .int _ | .double _ | .text _ | .codes _ | .bytes _ | .address _ | .date _ | .time _
  | .list _ | .map _ => rfl
termination_by structural value => value

theorem Datum.treeEntries_eq (depth : Nat) : ∀ entries : List (Entry Datum),
    Datum.treeEntries depth entries
      = (Datum.entriesOutline depth entries).map fun place => place.2.line place.1
  | [] => rfl
  | entry :: rest => by
    rw [treeEntries, entriesOutline, List.map_append, treeEntry_eq, treeEntries_eq]
termination_by structural entries => entries

theorem Datum.treeEntry_eq (depth : Nat) : ∀ entry : Entry Datum,
    Datum.treeEntry depth entry
      = (Datum.entryOutline depth entry).map fun place => place.2.line place.1
  | ⟨kind, name, offset, size, typeName, value, comment, raw⟩ => by
    rw [treeEntry, entryOutline, List.map_cons, treeLines_eq]
    rfl
termination_by structural entry => entry

end

theorem Scope.tree_eq (fields : Scope) (depth : Nat) :
    fields.tree depth
      = "\n".intercalate ((fields.outline depth).map fun place => place.2.line place.1) :=
  congrArg "\n".intercalate (Datum.treeEntries_eq depth fields)

/-! ### What is on one line -/

/-- That all of a result but its comment is on one line. -/
structure Entry.OneLine (result : Result) : Prop where
  name : IsLine result.name
  typeName : IsLine result.typeName
  value : result.value.isSimple = true ∨ result.value.isScope = true

theorem Datum.isLine_literal {value : Datum} (h : value.isSimple = true) :
    IsLine (value.plain false).literal := by
  cases value with
  | bool b => cases b <;> simp [IsLine, plain, literal]
  | null => simp [IsLine, plain, literal]
  | int n => exact Number.isLine_decimal n
  | double x => exact Number.isLine_text x
  | text s => exact Text.isLine_quoted s
  | address n => exact Text.isLine_quoted _
  | time t =>
    rw [plain]
    exact Text.isLine_quoted _
  | _ => cases h

theorem Entry.OneLine.isLine_line {result : Result} (h : result.OneLine) (depth : Nat) :
    IsLine (result.line depth) ↔ ∀ comment ∈ visibleComment result.comment, IsLine comment := by
  have hindent : IsLine (String.ofList (List.replicate (2 * depth) ' ')) := by
    simp [isLine_ofList]
  have hheader : IsLine result.header := by
    have hmarks : IsLine " <" ∧ IsLine "> @" ∧ IsLine " +" := by simp [IsLine]
    have hnumber (n : Int) : IsLine (toString n) := Text.isLine_toString_int n
    show IsLine (result.name ++ " <" ++ result.typeName ++ "> @" ++ toString result.offset ++ " +" ++
      toString result.size)
    simp only [isLine_append, h.name, h.typeName, hmarks, hnumber, and_self]
  have hshown : IsLine result.shown := by
    unfold shown
    split
    · simp [IsLine]
    · rename_i hscope
      apply isLine_append.2
      exact ⟨by simp [IsLine], Datum.isLine_literal (h.value.resolve_right hscope)⟩
  rw [line, isLine_append, isLine_append, isLine_append]
  simp only [hindent, hheader, hshown, true_and]
  unfold commentSuffix
  cases visibleComment result.comment with
  | none => simp [IsLine]
  | some comment => simp [IsLine]

/-- The text of a tree has the lines of its results, and no others, exactly if their comments are lines. -/
theorem Scope.forall₂_tree_iff {fields : Scope} (hfields : fields ≠ [])
    (hlines : ∀ result ∈ fields.everywhere, result.OneLine) (depth : Nat) :
    List.Forall₂ (fun place line => place.2.Heads place.1 line) (fields.outline depth)
        (Text.splitOn '\n' (fields.tree depth).toList)
      ↔ ∀ result ∈ fields.everywhere, ∀ comment ∈ visibleComment result.comment, IsLine comment := by
  let lines := (fields.outline depth).map fun place => (place.2.line place.1).toList
  have htree : (fields.tree depth).toList = ['\n'].intercalate lines := by
    rw [fields.tree_eq, String.toList_intercalate, List.map_map]
    rfl
  have hsome : lines ≠ [] := by
    obtain ⟨first, rest, rfl⟩ := List.exists_cons_of_ne_nil hfields
    intro hnone
    have houtline := List.map_eq_nil_iff.1 hnone
    have hnothing := (Scope.map_outline (first :: rest) depth).symm
    rw [houtline, Scope.everywhere_cons] at hnothing
    cases hnothing
  have hcomments : (∀ line ∈ lines, '\n' ∉ line)
      ↔ ∀ result ∈ fields.everywhere, ∀ comment ∈ visibleComment result.comment, IsLine comment := by
    rw [← fields.map_outline depth] at hlines ⊢
    simp only [lines, List.forall_mem_map] at hlines ⊢
    exact forall₂_congr fun place hplace => (hlines place hplace).isLine_line place.1
  rw [htree, ← hcomments]
  constructor
  · intro h
    apply Text.not_mem_of_splitOn_length hsome
    rw [← h.length_eq, List.length_map]
  · intro h
    rw [Text.splitOn_intercalate hsome h, List.forall₂_map_right_iff, List.forall₂_same]
    exact fun place _ => place.2.heads_line place.1

/-! ### What is decoded -/

theorem Text.isLine_of_isIdentifier {text : String} (h : Lexeme.isIdentifier text.toList = true) :
    IsLine text := by
  intro hmem
  obtain ⟨c, rest, htext⟩ := List.exists_cons_of_ne_nil (List.ne_nil_of_mem hmem)
  rw [htext, Lexeme.isIdentifier, Bool.and_eq_true] at h
  rw [htext] at hmem
  rcases List.mem_cons.1 hmem with rfl | hrest
  · exact absurd h.1 (by decide)
  · exact absurd (List.all_eq_true.1 h.2 _ hrest) (by decide)

theorem Text.isLine_indexedName {name : String} (h : IsLine name) (index : Nat) :
    IsLine (Decoder.indexedName name index) := by
  have hmarks : IsLine "[" ∧ IsLine "]" := by simp [IsLine]
  show IsLine (name ++ "[" ++ Nat.repr index ++ "]")
  simp only [isLine_append, h, hmarks, isLine_repr, and_self]

theorem Primitive.isLine_keyword (type : Primitive) : IsLine type.keyword := by
  cases type <;> simp [Primitive.keyword, IsLine]

/-- That the names in a declaration are lines. -/
structure Field.OneLine (declared : Field) : Prop where
  name : IsLine declared.name
  type : IsLine declared.type.name

structure Definition.OneLine (definition : Definition) : Prop where
  name : IsLine definition.name
  members : ∀ name ∈ definition.memberNames, IsLine name
  fields : ∀ declared ∈ definition.fields, declared.OneLine

def Origin.OneLine : Origin → Prop
  | .body nodes => ∀ declared ∈ bodyFields nodes, declared.OneLine
  | .field declared => declared.OneLine
  | .value type name _ => IsLine type.name ∧ IsLine name

namespace Scope

theorem everywhere_singleton {result : Result} :
    everywhere [result] = result :: result.value.inner := by
  rw [everywhere_cons, everywhere_nil, List.append_nil, everywhere_children]

theorem forall_everywhere_ofIterations {p : Result → Prop}
    (hp : ∀ (result : Result) (index : Nat), p result →
      p (result.rename (Decoder.indexedName result.name index)))
    {iterations : List Scope} (h : ∀ fields ∈ iterations, ∀ result ∈ everywhere fields, p result)
    (first : Nat) : ∀ result ∈ everywhere (ofIterations first iterations), p result := by
  induction iterations generalizing first with
  | nil => simp [ofIterations]
  | cons fields rest ih =>
    obtain ⟨hfields, hrest⟩ := List.forall_mem_cons.1 h
    rw [ofIterations, everywhere_append, List.forall_mem_append]
    exact ⟨forall_everywhere_rename _ (fun result => hp result first) hfields, ih hrest (first + 1)⟩

end Scope

/-- Results are called by the names of their declarations, with numbers behind them, and have the values
of a decode. -/
theorem Origin.Gives.oneLine {types : TypeTable}
    (htypes : ∀ definition ∈ types.definitions, definition.OneLine) {origin : Origin}
    {results : Scope} (h : Gives types origin results) (horigin : origin.OneLine) :
    ∀ result ∈ results.everywhere, result.OneLine := by
  induction h with
  | nil => simp
  | @declared declared nodes result results _ _ ihone ihrest =>
    have hboth : ∀ field ∈ declared :: bodyFields nodes, field.OneLine := horigin
    obtain ⟨hdeclared, hnodes⟩ := List.forall_mem_cons.1 hboth
    show ∀ inside ∈ Scope.everywhere ([result] ++ results), inside.OneLine
    rw [Scope.everywhere_append, List.forall_mem_append]
    exact ⟨ihone hdeclared, ihrest hnodes⟩
  | skipped _ _ ihrest => exact ihrest (List.forall_mem_append.1 horigin).2
  | entered _ _ _ ihinner ihrest =>
    obtain ⟨hbody, hnodes⟩ := List.forall_mem_append.1 horigin
    rw [Scope.everywhere_append, List.forall_mem_append]
    exact ⟨ihinner hbody, ihrest hnodes⟩
  | repeated _ _ _ ihinner ihrest =>
    obtain ⟨hbody, hnodes⟩ := List.forall_mem_append.1 horigin
    rw [Scope.everywhere_append, List.forall_mem_append]
    refine ⟨Scope.forall_everywhere_ofIterations ?_ (fun _ hmem => ihinner _ hmem hbody) 0,
      ihrest hnodes⟩
    exact fun result index h => ⟨Text.isLine_indexedName h.name index, h.typeName, h.value⟩
  | single _ _ ihvalue => exact ihvalue ⟨horigin.type, horigin.name⟩
  | @text declared offset size content hlength htype =>
    have hname : IsLine declared.typeName := by
      rw [Field.typeName, if_pos hlength]
      exact isLine_append.2 ⟨horigin.type, by simp [IsLine]⟩
    rw [Scope.everywhere_singleton]
    exact List.forall_mem_singleton.2 ⟨horigin.name, hname, .inl rfl⟩
  | @items declared items offset size hlength htype _ iheach =>
    have hname : IsLine declared.typeName := by
      rw [Field.typeName, if_pos hlength]
      exact isLine_append.2 ⟨horigin.type, by simp [IsLine]⟩
    rw [Scope.everywhere_singleton, List.forall_mem_cons]
    refine ⟨⟨horigin.name, hname, .inr rfl⟩, Scope.forall_everywhere_iff.2 fun item hitem => ?_⟩
    obtain ⟨index, hindex, rfl⟩ := List.mem_iff_getElem.1 hitem
    have hone := iheach index hindex ⟨horigin.type, Text.isLine_indexedName horigin.name index⟩
    rwa [Scope.everywhere_singleton, List.forall_mem_cons] at hone
  | @primitive type name comment offset size value hsimple =>
    rw [Scope.everywhere_singleton, List.forall_mem_cons]
    have hinner : value.inner = [] := by cases value <;> first | rfl | cases hsimple
    exact ⟨⟨horigin.2, type.isLine_keyword, .inl hsimple⟩, by simp [hinner]⟩
  | @struct typeName name comment offset size type fields hfound _ ihinner =>
    have htype := htypes _ (TypeTable.mem_of_find? hfound)
    rw [Scope.everywhere_singleton, List.forall_mem_cons]
    exact ⟨⟨horigin.2, htype.name, .inr rfl⟩, ihinner htype.fields⟩
  | @enum typeName name comment offset size raw type hfound =>
    have htype := htypes _ (TypeTable.mem_of_find? hfound)
    have hsimple := Decoder.memberValue_isSimple type raw
    have hinner : (Decoder.memberValue type raw).inner = [] := by
      unfold Decoder.memberValue
      split <;> rfl
    rw [Scope.everywhere_singleton, List.forall_mem_cons]
    exact ⟨⟨horigin.2, htype.name, .inl hsimple⟩, by simp [hinner]⟩
  | @bitfield typeName name comment offset size raw type hfound =>
    have htype := htypes _ (TypeTable.mem_of_find? hfound)
    have hmembers := Decoder.memberResults_forall type.base offset size type.members
      (p := fun member => member.OneLine ∧ ∀ inside ∈ member.value.inner, inside.OneLine)
      (fun member hmember bits => ⟨⟨htype.members _ (List.mem_map_of_mem hmember),
        type.base.isLine_keyword, .inl rfl⟩, List.forall_mem_nil _⟩) raw
    rw [Scope.everywhere_singleton, List.forall_mem_cons]
    exact ⟨⟨horigin.2, htype.name, .inr rfl⟩, Scope.forall_everywhere_iff.2 hmembers⟩

/-- The names in a compiled schema are lines. -/
theorem Schema.Compiled.oneLine {schema : Schema} (h : schema.Compiled) :
    (∀ definition ∈ schema.types.definitions, definition.OneLine) ∧
      ∀ body ∈ schema.root, (Origin.body body).OneLine := by
  obtain ⟨htypes, hroot⟩ := h.plainFields
  have hdefinitions := h.plainNames
  have hreferences : schema.ReferencesResolve := by
    obtain ⟨draft, source, hdraft, rfl⟩ := h.exists_settled
    exact hdraft.finish source
  have htype {type : TypeRef} (hresolves : type.Resolves schema.types) : IsLine type.name := by
    cases type with
    | primitive type => exact type.isLine_keyword
    | named kind name =>
      obtain ⟨definition, hfound, -⟩ := hresolves
      rw [TypeRef.name, ← TypeTable.name_of_find? hfound]
      exact Text.isLine_of_isIdentifier (hdefinitions _ (TypeTable.mem_of_find? hfound)).name
  constructor
  · intro definition hdefinition
    have hplain := hdefinitions definition hdefinition
    refine ⟨Text.isLine_of_isIdentifier hplain.name,
      fun name hname => Text.isLine_of_isIdentifier (hplain.members name hname), ?_⟩
    intro declared hdeclared
    refine ⟨Text.isLine_of_isIdentifier (htypes definition hdefinition declared hdeclared), ?_⟩
    obtain ⟨i, hi⟩ := List.mem_iff_getElem?.1 hdefinition
    cases definition with
    | struct type => exact htype (hreferences.structs i type hi declared hdeclared).resolves
    | enum => cases hdeclared
    | bitfield => cases hdeclared
  · intro body hbody declared hdeclared
    exact ⟨Text.isLine_of_isIdentifier (hroot body hbody declared hdeclared),
      htype (hreferences.root body hbody declared hdeclared)⟩

/-- The text of a decoded tree has one line for each result, in the order of the tree, that begins with its
indent and its name: exactly if every integer in the tree has a numeral, and every comment is a line. -/
theorem decode_tree_lines {schema : Schema} (hcompiled : schema.Compiled) {options : Options}
    {source : Source} {decoded : Decoded} {reading : Reading}
    (hdecode : schema.decode options source = .ok decoded reading) (hfields : decoded.fields ≠ [])
    (depth : Nat) :
    (decoded.fields.outline depth).map Prod.snd = decoded.fields.everywhere ∧
      ((∃ text, decoded.fields.tree? depth = some text ∧
          List.Forall₂ (fun place line => place.2.Heads place.1 line) (decoded.fields.outline depth)
            (Text.splitOn '\n' text.toList))
        ↔ ∀ result ∈ decoded.fields.everywhere, result.Writable ∧
          ∀ comment ∈ visibleComment result.comment, '\n' ∉ comment.toList) := by
  refine ⟨Scope.map_outline _ _, ?_⟩
  obtain ⟨body, hroot, hgives⟩ := Schema.decode_gives hdecode
  have hlines := hgives.oneLine hcompiled.oneLine.1 (hcompiled.oneLine.2 body hroot)
  have htext {text : String} : decoded.fields.tree? depth = some text
      ↔ (∀ result ∈ decoded.fields.everywhere, result.Writable) ∧ text = decoded.fields.tree depth :=
    Scope.tree?_eq_some_iff (Schema.decode_produced hdecode)
  have htree := Scope.forall₂_tree_iff hfields hlines depth
  constructor
  · rintro ⟨text, hsome, hplaces⟩
    obtain ⟨hwritable, rfl⟩ := htext.1 hsome
    exact fun result hresult => ⟨hwritable result hresult, htree.1 hplaces result hresult⟩
  · intro h
    have hsome := htext.2 ⟨fun result hresult => (h result hresult).1, rfl⟩
    exact ⟨_, hsome, htree.2 fun result hresult => (h result hresult).2⟩

/-- Two points of one coordinate each, which has a comment. -/
def Schema.points : Schema where
  types := {
    definitions := [.struct ⟨"P", [
      .field { name := "x", type := .primitive .byte, pos := ⟨1, 10⟩, comment := some "left" }],
      ⟨1, 8⟩⟩]
    frozen := true }
  root := some [.field { name := "p", type := .named .struct "P", pos := ⟨2, 9⟩
                         length := some ⟨[⟨.number 2, "2", ⟨2, 13⟩⟩], ⟨2, 13⟩⟩ }]

theorem Schema.points_compiled : points.Compiled := by
  have hrun : compile {} "struct P\x7bx:byte;// left\n\x7dschema\x7bp:P[2];\x7d" = .ok points := by
    cbv
  exact .text hrun

theorem decode_tree_lines_points : ∃ (decoded : Decoded) (reading : Reading) (text : String),
    Schema.points.Compiled ∧ Schema.points.decode {} (.ofBytes [7, 8]) = .ok decoded reading ∧
      decoded.fields ≠ [] ∧ decoded.fields.tree? 1 = some text ∧
      List.Forall₂ (fun place line => place.2.Heads place.1 line) (decoded.fields.outline 1)
        (Text.splitOn '\n' text.toList) := by
  let coordinate (offset n : Int) : Result :=
    { kind := .primitive, name := "x", offset, size := 1, typeName := "byte", value := .int n
      comment := some "left" }
  let point (name : String) (offset n : Int) : Result :=
    { kind := .struct, name, offset, size := 1, typeName := "P", value := .scope [coordinate offset n] }
  let fields : Scope := [
    { kind := .array, name := "p", offset := 0, size := 2, typeName := "P[]"
      value := .scope [point "p[0]" 0 7, point "p[1]" 1 8] }]
  have hdecode : Schema.points.decode {} (.ofBytes [7, 8])
      = .ok ⟨fields, 2, []⟩ ⟨.ofBytes [7, 8] 2, []⟩ := by
    rfl
  have hwritten : ∀ result ∈ fields.everywhere, result.Writable ∧
      ∀ comment ∈ visibleComment result.comment, '\n' ∉ comment.toList := by
    have hall : ∀ result ∈ fields.everywhere, (result.value.hasNumerals = true ∧
        Number.hasNumeral result.offset = true ∧ Number.hasNumeral result.size = true) ∧
          ∀ comment ∈ visibleComment result.comment, '\n' ∉ comment.toList := by
      decide +kernel
    intro result hresult
    obtain ⟨⟨hvalue, hoffset, hsize⟩, hcomment⟩ := hall result hresult
    exact ⟨⟨hvalue, hoffset, hsize⟩, hcomment⟩
  obtain ⟨text, htext, hplaces⟩ :=
    (decode_tree_lines Schema.points_compiled hdecode (List.cons_ne_nil _ _) 1).2.2 hwritten
  exact ⟨_, _, text, Schema.points_compiled, hdecode, List.cons_ne_nil _ _, htext, hplaces⟩

def Schema.twoLines : Schema where
  types := { frozen := true }
  root := some [
    .field { name := "a", type := .primitive .byte, pos := ⟨1, 8⟩, comment := some "x\ny" }]

theorem Schema.twoLines_compiled : twoLines.Compiled := by
  have hrun : compile {} "schema\x7ba:byte;/* x\ny */\x7d" = .ok twoLines := by
    cbv
  exact .text hrun

/-- The tree of one result with a comment of two lines has two lines. -/
theorem decode_tree_two_lines : ∃ (decoded : Decoded) (reading : Reading) (text : String),
    Schema.twoLines.Compiled ∧ Schema.twoLines.decode {} (.ofBytes [5]) = .ok decoded reading ∧
      decoded.fields.everywhere.length = 1 ∧ decoded.fields.tree? 0 = some text ∧
      (Text.splitOn '\n' text.toList).length = 2 := by
  refine ⟨_, _, "a <byte> @0 +1: 5  // x\ny", Schema.twoLines_compiled, rfl, rfl, ?_, rfl⟩
  decide +kernel

end BinarySchema
