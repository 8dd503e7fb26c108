import BinarySchema.Decode
import BinarySchema.Proofs.Result.Leaves
import Mathlib.Data.List.Perm.Subperm

/-!
# Static layouts

The types and bodies whose results always stand at the same distances from their beginning: there are no
strings and no blocks, and the lengths of arrays are numbers. A layout says what the parts are called and
how many bytes they take, so it has a size and a list of places.

A type has at most one layout. So a struct in a struct has a layout of its own with fewer levels, and
there are no more levels of structs in a layout than structs in the table.
-/

namespace BinarySchema

open Decoder (indexedName)

/-- Where the bytes of a result stand, and how many they are. -/
structure Place where
  name : String
  offset : Int
  size : Int
  deriving DecidableEq, Repr

def Place.shift (place : Place) (distance : Nat) : Place :=
  { place with offset := place.offset + distance }

def Entry.place (result : Result) : Place :=
  ⟨result.name, result.offset, result.size⟩

/-- The places of the results of a tree at every depth, each before those inside it. -/
def Scope.places (scope : Scope) : List Place :=
  (everywhere scope).map Entry.place

/-- The parts of a result of a fixed size: none, members that share its bytes, fields in a row, or
elements that are all alike. -/
inductive Layout where
  | plain (size : Nat)
  | shared (size : Nat) (members : List String)
  | fields (parts : List (String × Layout))
  | elements (count : Nat) (element : Layout)
  deriving Repr

namespace Layout

mutual

def size : Layout → Nat
  | .plain size | .shared size _ => size
  | .fields parts => partsSize parts
  | .elements count element => count * element.size
termination_by structural layout => layout

def partsSize : List (String × Layout) → Nat
  | [] => 0
  | (_, part) :: rest => part.size + partsSize rest
termination_by structural parts => parts

end

mutual

/-- The levels of structs within structs. -/
def depth : Layout → Nat
  | .plain _ | .shared _ _ => 0
  | .fields parts => partsDepth parts + 1
  | .elements _ element => element.depth
termination_by structural layout => layout

def partsDepth : List (String × Layout) → Nat
  | [] => 0
  | (_, part) :: rest => max part.depth (partsDepth rest)
termination_by structural parts => parts

end

mutual

/-- The places of a result with a name that begins at an offset, and of the results inside it. -/
def places : Layout → String → Nat → List Place
  | .plain size, name, offset => [⟨name, offset, size⟩]
  | .shared size members, name, offset =>
    ⟨name, offset, size⟩ :: members.map fun member => ⟨member, offset, size⟩
  | .fields parts, name, offset => ⟨name, offset, partsSize parts⟩ :: partsPlaces parts offset
  | .elements count element, name, offset =>
    ⟨name, offset, (count * element.size : Nat)⟩ :: (List.range count).flatMap fun index =>
      element.places (indexedName name index) (offset + index * element.size)
termination_by structural layout => layout

/-- The places of fields in a row, the first of which begins at an offset. -/
def partsPlaces : List (String × Layout) → Nat → List Place
  | [], _ => []
  | (name, part) :: rest, offset => part.places name offset ++ partsPlaces rest (offset + part.size)
termination_by structural parts => parts

end

mutual

theorem places_add (distance : Nat) : ∀ (layout : Layout) (name : String) (offset : Nat),
    layout.places name (distance + offset) = (layout.places name offset).map (·.shift distance)
  | .plain size, name, offset => by
    simp [places, Place.shift, Int.add_comm]
  | .shared size members, name, offset => by
    simp [places, Place.shift, Int.add_comm]
  | .fields parts, name, offset => by
    rw [places, places, partsPlaces_add distance parts offset]
    simp [Place.shift, Int.add_comm]
  | .elements count element, name, offset => by
    have hinside (index : Nat) := places_add distance element (indexedName name index)
      (offset + index * element.size)
    simp only [places, Nat.add_assoc, hinside, List.map_cons, List.map_flatMap]
    simp [Place.shift, Int.add_comm]
termination_by structural layout => layout

theorem partsPlaces_add (distance : Nat) : ∀ (parts : List (String × Layout)) (offset : Nat),
    partsPlaces parts (distance + offset) = (partsPlaces parts offset).map (·.shift distance)
  | [], _ => rfl
  | (name, part) :: rest, offset => by
    rw [partsPlaces, partsPlaces, places_add distance part name offset, Nat.add_assoc,
      partsPlaces_add distance rest (offset + part.size), List.map_append]
termination_by structural parts => parts

end

end Layout

/-! ### Fixed types and bodies -/

def Primitive.isIntegral : Primitive → Bool
  | .float | .double | .string => false
  | _ => true

mutual

/-- The layout of a type with values of a fixed size. -/
inductive TypeRef.HasLayout (types : TypeTable) : TypeRef → Layout → Prop
  | primitive {type : Primitive} (hstring : type ≠ .string) :
      TypeRef.HasLayout types (.primitive type) (.plain type.size)
  | enum {name : String} {type : EnumDef} (hfound : types.find? name = some (.enum type))
      (hbase : type.base.isIntegral = true) :
      TypeRef.HasLayout types (.named .enum name) (.plain type.base.size)
  | bitfield {name : String} {type : BitfieldDef} (hfound : types.find? name = some (.bitfield type))
      (hbase : type.base.isIntegral = true) (hdistinct : (type.members.map (·.name)).Nodup)
      (hwidths : ∀ member ∈ type.members, member.width ≤ 64) :
      TypeRef.HasLayout types (.named .bitfield name)
        (.shared type.base.size (type.members.map (·.name)))
  | struct {name : String} {type : StructDef} {parts : List (String × Layout)}
      (hfound : types.find? name = some (.struct type)) (hbody : BodyHasLayout types type.body parts) :
      TypeRef.HasLayout types (.named .struct name) (.fields parts)

/-- The layout of a field: that of its type, or of as many elements as the number says that is its
length. Characters are put together to a text. -/
inductive Field.HasLayout (types : TypeTable) : Field → Layout → Prop
  | single {declared : Field} {layout : Layout} (hlength : declared.length = none)
      (htype : TypeRef.HasLayout types declared.type layout) : Field.HasLayout types declared layout
  | text {declared : Field} {count : Nat} {literal : String} {pos place : Position}
      (hlength : declared.length = some ⟨[⟨.number count, literal, pos⟩], place⟩)
      (htext : declared.type = .primitive .char) : Field.HasLayout types declared (.plain count)
  | array {declared : Field} {count : Nat} {literal : String} {pos place : Position} {layout : Layout}
      (hlength : declared.length = some ⟨[⟨.number count, literal, pos⟩], place⟩)
      (htext : declared.type ≠ .primitive .char) (htype : TypeRef.HasLayout types declared.type layout) :
      Field.HasLayout types declared (.elements count layout)

/-- The layout of a body of fields with names of their own. -/
inductive BodyHasLayout (types : TypeTable) : List Node → List (String × Layout) → Prop
  | nil : BodyHasLayout types [] []
  | cons {declared : Field} {layout : Layout} {rest : List Node} {parts : List (String × Layout)}
      (hfield : Field.HasLayout types declared layout) (hrest : BodyHasLayout types rest parts)
      (hname : declared.name ∉ parts.map Prod.fst) :
      BodyHasLayout types (.field declared :: rest) ((declared.name, layout) :: parts)

end

variable {types : TypeTable}

mutual

/-- A type has at most one layout. -/
theorem TypeRef.HasLayout.unique {type : TypeRef} {layout other : Layout} :
    type.HasLayout types layout → type.HasLayout types other → layout = other
  | .primitive _, .primitive _ => rfl
  | .enum hfound _, .enum hother _ => by
    cases hfound.symm.trans hother
    rfl
  | .bitfield hfound _ _ _, .bitfield hother _ _ _ => by
    cases hfound.symm.trans hother
    rfl
  | .struct hfound hbody, .struct hother hbody' => by
    cases hfound.symm.trans hother
    rw [hbody.unique hbody']
termination_by structural h => h

theorem Field.HasLayout.unique {declared : Field} {layout other : Layout} :
    declared.HasLayout types layout → declared.HasLayout types other → layout = other
  | .single hlength htype, h => by
    cases h with
    | single _ hother => exact htype.unique hother
    | text hother _ => cases hlength.symm.trans hother
    | array hother _ _ => cases hlength.symm.trans hother
  | .text hlength htext, h => by
    cases h with
    | single hother _ => cases hlength.symm.trans hother
    | text hother _ =>
      cases hlength.symm.trans hother
      rfl
    | array _ hother _ => exact absurd htext hother
  | .array hlength htext htype, h => by
    cases h with
    | single hother _ => cases hlength.symm.trans hother
    | text _ hother => exact absurd hother htext
    | array hother _ htype' =>
      cases hlength.symm.trans hother
      rw [htype.unique htype']
termination_by structural h => h

theorem BodyHasLayout.unique {body : List Node} {parts other : List (String × Layout)} :
    BodyHasLayout types body parts → BodyHasLayout types body other → parts = other
  | .nil, .nil => rfl
  | .cons hfield hrest _, .cons hfield' hrest' _ => by
    rw [hfield.unique hfield', hrest.unique hrest']
termination_by structural h => h

end

theorem BodyHasLayout.names_nodup {body : List Node} {parts : List (String × Layout)} :
    BodyHasLayout types body parts → (parts.map Prod.fst).Nodup
  | .nil => List.nodup_nil
  | .cons _ hrest hname => List.nodup_cons.2 ⟨hname, hrest.names_nodup⟩

/-! ### Levels -/

/-- That there are as many structs with layouts of at most as many levels. -/
def HasLevels (types : TypeTable) (depth : Nat) : Prop :=
  ∃ chain : List String, chain.length = depth ∧ chain.Nodup ∧ ∀ name ∈ chain, ∃ layout,
    (TypeRef.named .struct name).HasLayout types layout ∧ layout.depth ≤ depth

namespace HasLevels

theorem zero : HasLevels types 0 :=
  ⟨[], rfl, List.nodup_nil, nofun⟩

theorem max {left right : Nat} (hleft : HasLevels types left) (hright : HasLevels types right) :
    HasLevels types (max left right) := by
  rcases Nat.le_total left right with h | h
  · rwa [Nat.max_eq_right h]
  · rwa [Nat.max_eq_left h]

/-- A struct around has more levels than those there were, so it is none of them. -/
theorem struct {name : String} {layout : Layout} {depth : Nat} (h : HasLevels types depth)
    (hlayout : (TypeRef.named .struct name).HasLayout types layout) (hdepth : layout.depth = depth + 1) :
    HasLevels types (depth + 1) := by
  obtain ⟨chain, hlength, hdistinct, hchain⟩ := h
  refine ⟨name :: chain, by rw [List.length_cons, hlength], List.nodup_cons.2 ⟨?_, hdistinct⟩, ?_⟩
  · intro hname
    obtain ⟨other, hother, hle⟩ := hchain name hname
    rw [← hlayout.unique hother] at hle
    omega
  · intro other hother
    rcases List.mem_cons.1 hother with rfl | hother
    · exact ⟨layout, hlayout, Nat.le_of_eq hdepth⟩
    · obtain ⟨inner, hinner, hle⟩ := hchain other hother
      exact ⟨inner, hinner, Nat.le_succ_of_le hle⟩

theorem le_size {depth : Nat} (h : HasLevels types depth) : depth ≤ types.size := by
  obtain ⟨chain, rfl, hdistinct, hchain⟩ := h
  have hnames : chain ⊆ types.names := by
    intro name hname
    obtain ⟨layout, hlayout, -⟩ := hchain name hname
    cases hlayout with
    | struct hfound _ =>
      have hmem := List.mem_of_find?_eq_some hfound
      have hsame := List.find?_some hfound
      rw [← of_decide_eq_true hsame]
      exact List.mem_map_of_mem hmem
  have hlength := (List.subperm_of_subset hdistinct hnames).length_le
  rwa [TypeTable.names, List.length_map] at hlength

end HasLevels

mutual

theorem TypeRef.HasLayout.levels {type : TypeRef} {layout : Layout} :
    type.HasLayout types layout → HasLevels types layout.depth
  | .primitive _ | .enum _ _ | .bitfield _ _ _ _ => .zero
  | .struct hfound hbody => hbody.levels.struct (.struct hfound hbody) rfl
termination_by structural h => h

theorem Field.HasLayout.levels {declared : Field} {layout : Layout} :
    declared.HasLayout types layout → HasLevels types layout.depth
  | .single _ htype => htype.levels
  | .text _ _ => .zero
  | .array _ _ htype => htype.levels
termination_by structural h => h

theorem BodyHasLayout.levels {body : List Node} {parts : List (String × Layout)} :
    BodyHasLayout types body parts → HasLevels types (Layout.partsDepth parts)
  | .nil => .zero
  | .cons hfield hrest _ => hfield.levels.max hrest.levels
termination_by structural h => h

end

end BinarySchema
