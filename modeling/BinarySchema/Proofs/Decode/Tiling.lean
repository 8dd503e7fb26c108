import BinarySchema.Proofs.Decode.Accumulation
import BinarySchema.Proofs.Except
import BinarySchema.Proofs.Result.Leaves

/-!
# Offsets and sizes

The leaves of a result tree tile the bytes that the decode consumed: each begins where the one before
ends. The end of a string is the one byte that no result counts, so a leaf that was read as a string
ends one byte behind its size. Groups are as large as what they hold.

`SpansBytes` is the relation that the induction over a decode carries; it says the same of any results
between any two readings.
-/

namespace BinarySchema

/-- Spans of bytes from `start` to `stop`, each beginning where the one before ends. -/
def Tiles : (start : Int) → List (Int × Int) → (stop : Int) → Prop
  | start, [], stop => start = stop
  | start, (first, behind) :: rest, stop => first = start ∧ Tiles behind rest stop

theorem Tiles.append {start middle stop : Int} {left right : List (Int × Int)}
    (hleft : Tiles start left middle) (hright : Tiles middle right stop) :
    Tiles start (left ++ right) stop := by
  induction left generalizing start with
  | nil =>
    obtain rfl : start = middle := hleft
    exact hright
  | cons span rest ih => exact ⟨hleft.1, ih hleft.2⟩

/-- Whether a leaf was read as a string, whose last byte belongs to no result. -/
def Entry.readsString (types : TypeTable) (leaf : Result) : Bool :=
  leaf.base? types = some .string

/-- Where a leaf begins, and where what was read for it ends. -/
def Entry.span (types : TypeTable) (leaf : Result) : Int × Int :=
  (leaf.offset, leaf.offset + leaf.size + if leaf.readsString types then 1 else 0)

/-- A struct, and an array that is no text, is as large as its children together, and the members of a
bitfield stand where it stands. -/
structure Entry.Sized (result : Result) : Prop where
  struct : result.kind = .struct → result.size = Scope.totalSize result.children
  array : result.kind = .array → (∀ text, result.value ≠ .text text) →
    result.size = Scope.totalSize result.children
  bitfield : result.kind = .bitfield →
    ∀ member ∈ result.children, member.offset = result.offset ∧ member.size = result.size

/-- The number of strings that were read for the leaves of a scope. -/
def Scope.stringReads (types : TypeTable) (scope : Scope) : Nat :=
  (scope.leaves.map (Entry.readsString types)).count true

namespace Scope

theorem stringReads_append (types : TypeTable) (left right : Scope) :
    stringReads types (left ++ right) = stringReads types left + stringReads types right := by
  simp [stringReads, leaves_append]

theorem stringReads_group (types : TypeTable) {entry : Result} (h : entry.isGroup = true) :
    stringReads types [entry] = stringReads types entry.children := by
  rw [stringReads, leaves_group h, stringReads]

theorem stringReads_leaf (types : TypeTable) {entry : Result} (h : entry.isGroup = false) :
    stringReads types [entry] = if entry.readsString types then 1 else 0 := by
  rw [stringReads, leaves_leaf h]
  cases hstring : entry.readsString types <;> simp [hstring]

theorem sized_everywhere_flat {entry : Result} (hsized : entry.Sized)
    (hchildren : entry.children = []) : ∀ result ∈ everywhere [entry], result.Sized := by
  rw [everywhere_flat (by simpa using hchildren)]
  intro result hresult
  obtain rfl := List.mem_singleton.1 hresult
  exact hsized

/-- The results between two readings tile the bytes between them, with the sizes that they should
have. -/
structure SpansBytes (types : TypeTable) (before : Reading) (results : List Result)
    (after : Reading) : Prop where
  tiles : Tiles before.source.position ((leaves results).map (Entry.span types))
    after.source.position
  sized : ∀ result ∈ everywhere results, result.Sized
  total : (after.source.position : Int) =
    before.source.position + totalSize results + stringReads types results

variable {types : TypeTable} {r s t : Reading}

theorem SpansBytes.leaf {entry : Result} (hleaf : entry.isGroup = false)
    (hoffset : entry.offset = r.source.position)
    (hstop : (s.source.position : Int)
      = r.source.position + entry.size + if entry.readsString types then 1 else 0)
    (hsized : ∀ result ∈ everywhere [entry], result.Sized) : SpansBytes types r [entry] s where
  tiles := by
    rw [leaves_leaf hleaf]
    refine ⟨hoffset, ?_⟩
    -- The end of a string is behind the leaf's size but still before the next leaf.
    rw [hoffset, hstop]
    rfl
  sized := hsized
  total := by
    rw [stringReads_leaf types hleaf, hstop]
    cases entry.readsString types <;> simp

theorem SpansBytes.group {entry : Result} (hgroup : entry.isGroup = true)
    (hkind : entry.kind ≠ .bitfield) (hsize : entry.size = totalSize entry.children)
    (h : SpansBytes types r entry.children s) : SpansBytes types r [entry] s where
  tiles := by
    rw [leaves_group hgroup]
    exact h.tiles
  sized := by
    simp only [everywhere_cons, everywhere_nil, List.append_nil, List.mem_cons]
    rintro result (rfl | hinner)
    · exact ⟨fun _ => hsize, fun _ _ => hsize, fun hbitfield => absurd hbitfield hkind⟩
    · exact h.sized result hinner
  total := by
    rw [stringReads_group types hgroup, h.total, ← hsize]
    simp

theorem SpansBytes.nil (r : Reading) : SpansBytes types r [] r where
  tiles := rfl
  sized := by simp
  total := by simp [stringReads]

theorem SpansBytes.append {left right : List Result} (hleft : SpansBytes types r left s)
    (hright : SpansBytes types s right t) : SpansBytes types r (left ++ right) t where
  tiles := by
    rw [leaves_append, List.map_append]
    exact hleft.tiles.append hright.tiles
  sized := by
    intro result hresult
    rw [everywhere_append, List.mem_append] at hresult
    exact hresult.elim (hleft.sized result) (hright.sized result)
  total := by
    have hl := hleft.total
    have hr := hright.total
    rw [totalSize_append, stringReads_append]
    push_cast
    omega

theorem SpansBytes.rename {results : List Result} (name : Result → String)
    (h : SpansBytes types r results s) :
    SpansBytes types r (results.map fun result => result.rename (name result)) s where
  tiles := by
    rw [map_leaves_rename fun _ _ => rfl]
    exact h.tiles
  sized := forall_everywhere_rename name
    (fun _ hsized => ⟨hsized.struct, hsized.array, hsized.bitfield⟩) h.sized
  total := by
    rw [totalSize_rename, stringReads, map_leaves_rename fun _ _ => rfl]
    exact h.total

end Scope

namespace Decoder

open Scope (SpansBytes)

variable {context : DecodeContext} {r s : Reading}

theorem primitive_position {type : Primitive} {name : String} {value : Datum} {size : Nat}
    (h : primitive context type name r = .ok (value, size) s) :
    (s.source.position : Int)
      = r.source.position + size + if some type = some Primitive.string then 1 else 0 := by
  obtain ⟨bytes, -, rfl, -, hconsumes, -⟩ := primitive_ok h
  rw [hconsumes.position, List.length_append]
  cases type <;> (simp [Primitive.terminator]; try omega)

theorem ofBytes_children {entry : Result} {type : Primitive} {options : Options} {bytes : List UInt8}
    (h : type.ofBytes options bytes = .ok entry.value) : entry.children = [] := by
  unfold Entry.children
  cases type with
  | char | string =>
    obtain ⟨text, -, hvalue⟩ := Except.map_ok_iff.1 h
    rw [← hvalue]
  | _ => rw [← Except.ok.inj h]

theorem memberValue_children (entry : Result) {type : EnumDef} {raw : Int}
    (h : entry.value = memberValue type raw) : entry.children = [] := by
  unfold Entry.children
  rw [h]
  unfold memberValue
  cases type.memberFor? raw <;> rfl

theorem bitfield_sized {type : BitfieldDef} {name : String} {comment : Option String}
    {result : Result} (h : bitfield context type name comment r = .ok result s) :
    ∀ inner ∈ Scope.everywhere [result], inner.Sized := by
  obtain ⟨raw, size, -, rfl⟩ := bitfield_ok h
  have hmembers := memberResults_forall type.base r.source.position size type.members
    (p := fun member => member.Sized ∧ member.children = [] ∧
      member.offset = r.source.position ∧ member.size = size)
    (fun _ _ _ => ⟨⟨nofun, nofun, nofun⟩, rfl, rfl, rfl⟩) raw
  have hflat := Scope.everywhere_flat fun member hmember => (hmembers member hmember).2.1
  intro inner hinner
  rw [Scope.everywhere_cons, Scope.everywhere_nil, List.append_nil] at hinner
  rcases List.mem_cons.1 hinner with rfl | hmember
  · exact ⟨nofun, nofun, fun _ member hmember => (hmembers member hmember).2.2⟩
  · exact (hmembers inner (hflat ▸ hmember)).1

/-- The results of every run between two readings tile the bytes between them. -/
theorem spansBytes_accumulates (context : DecodeContext) :
    Accumulates context (fun _ => True) (SpansBytes context.types) where
  bodies _ _ _ := trivial
  nil := SpansBytes.nil
  append := SpansBytes.append
  rename := SpansBytes.rename
  primitive _ hread := by
    refine SpansBytes.leaf rfl rfl ?_ ?_
    · rw [primitive_position hread]
      simp [Entry.readsString, Entry.base?, Primitive.ofWord?_keyword]
    · obtain ⟨bytes, hvalue, -⟩ := primitive_ok hread
      exact Scope.sized_everywhere_flat ⟨nofun, nofun, nofun⟩ (ofBytes_children hvalue)
  enum hfound hrun := by
    obtain ⟨raw, size, t, hread, hsource, rfl⟩ := enum_ok hrun
    obtain ⟨value, hprimitive, -⟩ := baseInteger_ok hread
    refine SpansBytes.leaf rfl rfl ?_ ?_
    · rw [hsource, primitive_position hprimitive]
      simp [Entry.readsString, Entry.base?, hfound, Definition.base?]
    · exact Scope.sized_everywhere_flat ⟨nofun, nofun, nofun⟩ (memberValue_children _ rfl)
  bitfield hfound hrun := by
    have hsized := bitfield_sized hrun
    obtain ⟨raw, size, hread, rfl⟩ := bitfield_ok hrun
    obtain ⟨value, hprimitive, -⟩ := baseInteger_ok hread
    refine SpansBytes.leaf rfl rfl ?_ hsized
    rw [primitive_position hprimitive]
    simp [Entry.readsString, Entry.base?, hfound, Definition.base?]
  struct h := SpansBytes.group rfl (by simp) rfl h
  text hread _ := by
    obtain ⟨hlength, hconsumes, -⟩ := read_ok hread
    refine SpansBytes.leaf rfl rfl ?_ ?_
    · rw [hconsumes.position]
      simp [Entry.readsString, Entry.base?, hlength]
    · exact Scope.sized_everywhere_flat ⟨nofun, fun _ htext => absurd rfl (htext _), nofun⟩ rfl
  items h := SpansBytes.group rfl (by simp) rfl h

end Decoder

/-- The leaves of a decoded tree tile the bytes from the start of the decode to its end, groups and
bitfield members have the sizes and offsets that follow from them, and only the ends of strings are
consumed without being counted. -/
theorem decode_tiles {schema : Schema} {options : Options} {source : Source} {decoded : Decoded}
    {reading : Reading} (h : schema.decode options source = .ok decoded reading) :
    Tiles source.position (decoded.fields.leaves.map (Entry.span schema.types))
        (source.position + decoded.consumed) ∧
      (∀ result ∈ decoded.fields.everywhere, result.Sized) ∧
      (decoded.consumed : Int) =
        decoded.fields.totalSize + decoded.fields.stringReads schema.types := by
  cases hroot : schema.root with
  | none => simp [Schema.decode, hroot] at h
  | some body =>
    have hstop := (Schema.decode_consumes h).2
    obtain ⟨hspans, -, -⟩ :=
      (Decoder.spansBytes_accumulates ⟨schema.types, options⟩).decode hroot (fun _ _ => trivial) h
    have htotal := hspans.total
    rw [hstop] at htotal
    refine ⟨?_, hspans.sized, ?_⟩
    · have htiles := hspans.tiles
      rw [hstop] at htiles
      exact_mod_cast htiles
    · push_cast at htotal
      omega

/-- Two characters, and behind them records of an enum, a bitfield and a string, each with a number,
up to the end of the input. -/
def Schema.records : Schema where
  types := {
    definitions := [
      .enum ⟨"Kind", .byte, [⟨"Empty", 0⟩, ⟨"Text", 5⟩], ⟨1, 1⟩⟩,
      .bitfield ⟨"Flags", .ushort, [⟨"low", 3, none⟩, ⟨"high", 5, none⟩], ⟨2, 1⟩⟩,
      .struct ⟨"Record", [
        .field { name := "kind", type := .named .enum "Kind", pos := ⟨3, 17⟩ },
        .field { name := "flags", type := .named .bitfield "Flags", pos := ⟨3, 30⟩ },
        .field { name := "title", type := .primitive .string, pos := ⟨3, 45⟩ }], ⟨3, 1⟩⟩]
    frozen := true }
  root := some [
    .field { name := "magic", type := .primitive .char, pos := ⟨5, 3⟩
             length := some ⟨[⟨.number 2, "2", ⟨5, 16⟩⟩], ⟨5, 16⟩⟩ },
    .block ⟨⟨true, true⟩, ⟨[⟨.probe, "@eof", ⟨6, 10⟩⟩], ⟨6, 10⟩⟩, ⟨6, 3⟩⟩ [
      .field { name := "record", type := .named .struct "Record", pos := ⟨7, 5⟩ },
      .field { name := "size", type := .primitive .short, pos := ⟨8, 5⟩ }]]

theorem decode_tiles_records :
    ∃ decoded reading,
      Schema.records.decode {} (.ofBytes
        [255, 66, 83, 5, 19, 7, 65, 0, 254, 255, 6, 0, 1, 66, 67, 0, 1, 2] 1)
          = .ok decoded reading ∧
      Tiles 1 (decoded.fields.leaves.map (Entry.span Schema.records.types)) 18 ∧
      (∀ result ∈ decoded.fields.everywhere, result.Sized) ∧
      17 = decoded.fields.totalSize + decoded.fields.stringReads Schema.records.types := by
  have hcount : Schema.records.consumed? {} (.ofBytes
      [255, 66, 83, 5, 19, 7, 65, 0, 254, 255, 6, 0, 1, 66, 67, 0, 1, 2] 1) = some 17 := by
    decide +kernel
  obtain ⟨decoded, reading, hrun, hconsumed⟩ := Schema.decode_of_consumed? hcount
  have h := decode_tiles hrun
  rw [hconsumed] at h
  exact ⟨decoded, reading, hrun, h⟩

end BinarySchema
