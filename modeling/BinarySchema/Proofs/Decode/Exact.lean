import BinarySchema.Proofs.Decode.Layout
import BinarySchema.Proofs.Decode.Loop
import BinarySchema.Proofs.Decode.Tiling
import BinarySchema.Proofs.Text.Codecs

/-!
# Decoders of a fixed size

A decoder of a fixed size comes to a result exactly if that many bytes are unread, and takes them.
`Exactly` says so of two decoders at once, which come to the same result: the bodies of structs are decoded
with different bounds on their levels, and a body inside a loop sees other scopes than one that is a root,
but what they come to depends on the source alone.

Types and bodies with a layout are decoded in this way, and their results stand where the layout says.
-/

namespace BinarySchema

namespace Decoder

variable {α β : Type} {size rest : Nat} {holds : Nat → α → Prop} {context : DecodeContext}

/-- That two decoders come to the same result exactly if a number of bytes are unread in front of them,
which they take, and that something holds of the position before and the result. -/
structure Exactly (size : Nat) (holds : Nat → α → Prop) (x y : Decoder α) : Prop where
  enough {r s : Reading} (hsource : r.source = s.source) (hchunk : r.source.chunk = none)
    (hunread : size ≤ r.source.unread) : ∃ a warnings warnings',
      x r = .ok a ⟨r.source.skip size, warnings⟩ ∧ y s = .ok a ⟨r.source.skip size, warnings'⟩ ∧
        holds r.source.position a
  short {r : Reading} (hchunk : r.source.chunk = none) (hunread : r.source.unread < size) :
    ∃ e s, x r = .error e s

namespace Exactly

theorem mono {other : Nat → α → Prop} {x y : Decoder α} (h : Exactly size holds x y)
    (hholds : ∀ start a, holds start a → other start a) : Exactly size other x y where
  enough hsource hchunk hunread := by
    obtain ⟨a, warnings, warnings', hx, hy, ha⟩ := h.enough hsource hchunk hunread
    exact ⟨a, warnings, warnings', hx, hy, hholds _ _ ha⟩
  short := h.short

theorem pure {a : α} (h : ∀ start, holds start a) :
    Exactly 0 holds (Pure.pure a : Decoder α) (Pure.pure a) where
  enough {r s} hsource _ _ := by
    refine ⟨a, r.warnings, s.warnings, ?_, ?_, h _⟩
    · rw [Source.skip_zero]
      rfl
    · rw [Source.skip_zero, hsource]
      rfl
  short _ hunread := absurd hunread (Nat.not_lt_zero _)

/-- A second decoder begins where the first one ends. -/
theorem bind {then_ : Nat → β → Prop} {x y : Decoder α} {f g : α → Decoder β}
    (hfirst : Exactly size holds x y) (hrest : ∀ start a, holds start a →
      Exactly rest (fun next b => next = start + size → then_ start b) (f a) (g a)) :
    Exactly (size + rest) then_ (x >>= f) (y >>= g) where
  enough {r s} hsource hchunk hunread := by
    have hsize : size ≤ r.source.unread := by omega
    obtain ⟨a, w, w', hx, hy, ha⟩ := hfirst.enough hsource hchunk hsize
    have hunread' : rest ≤ (r.source.skip size).unread := by
      rw [Source.unread_skip]
      omega
    obtain ⟨b, v, v', hf, hg, hb⟩ := (hrest _ a ha).enough (r := ⟨r.source.skip size, w⟩)
      (s := ⟨r.source.skip size, w'⟩) rfl hchunk hunread'
    rw [Source.skip_skip hunread] at hf hg
    refine ⟨b, v, v', ?_, ?_, hb (Source.position_skip hsize)⟩
    · rw [bind_of_ok hx, hf]
    · rw [bind_of_ok hy, hg]
  short {r} hchunk hunread := by
    by_cases hsize : size ≤ r.source.unread
    · obtain ⟨a, w, w', hx, -, ha⟩ := hfirst.enough rfl hchunk hsize
      have hunread' : (r.source.skip size).unread < rest := by
        rw [Source.unread_skip]
        omega
      obtain ⟨e, s, he⟩ := (hrest _ a ha).short (r := ⟨r.source.skip size, w⟩) hchunk hunread'
      exact ⟨e, s, by rw [bind_of_ok hx, he]⟩
    · obtain ⟨e, s, he⟩ := hfirst.short hchunk (Nat.lt_of_not_le hsize)
      exact ⟨e, s, bind_error_iff.2 (.inl he)⟩

theorem bind_zero {then_ : Nat → β → Prop} {x y : Decoder α} {f g : α → Decoder β}
    (hfirst : Exactly size holds x y) (hrest : ∀ start a, holds start a →
      Exactly 0 (fun next b => next = start + size → then_ start b) (f a) (g a)) :
    Exactly size then_ (x >>= f) (y >>= g) :=
  hfirst.bind hrest

theorem position_bind {f g : Nat → Decoder α}
    (h : ∀ offset, Exactly size (fun start a => start = offset → holds start a) (f offset) (g offset)) :
    Exactly size holds (position >>= f) (position >>= g) where
  enough {r s} hsource hchunk hunread := by
    obtain ⟨a, w, w', hx, hy, ha⟩ := (h r.source.position).enough hsource hchunk hunread
    refine ⟨a, w, w', hx, ?_, ha rfl⟩
    rw [Decoder.position_bind, ← hsource]
    exact hy
  short {r} hchunk hunread := (h r.source.position).short hchunk hunread

theorem read (count : Nat) (label : String) :
    Exactly count (fun _ bytes => bytes.length = count) (read count label) (read count label) where
  enough {r s} hsource hchunk hunread := by
    have hread := Source.read_enough hchunk hunread
    refine ⟨r.source.rest.take count, r.warnings, s.warnings, ?_, ?_, ?_⟩
    · rw [read_run, hread]
    · rw [read_run, ← hsource, hread]
    · rw [List.length_take, ← Source.unread_eq, Nat.min_eq_left hunread]
  short {r} _ hunread := by
    rw [read_run, Source.read_short hunread]
    exact ⟨_, _, rfl⟩

theorem warn (unlisted : UnlistedValue) :
    Exactly 0 (fun _ _ => True) (warn unlisted) (warn unlisted) where
  enough {r s} hsource _ _ := by
    refine ⟨(), r.warnings ++ [unlisted], s.warnings ++ [unlisted], ?_, ?_, trivial⟩
    · rw [Source.skip_zero]
      rfl
    · rw [Source.skip_zero, hsource]
      rfl
  short _ hunread := absurd hunread (Nat.not_lt_zero _)

theorem evaluate_bind {scopes scopes' : List Scope} {label : String} {a : α}
    {evaluator : EvalContext → Except EvalError α} {f g : α → Decoder β} {holds : Nat → β → Prop}
    (hvalue : ∀ state, evaluator state = .ok a) (h : Exactly size holds (f a) (g a)) :
    Exactly size holds (evaluate context scopes label evaluator >>= f)
      (evaluate context scopes' label evaluator >>= g) where
  enough {r s} hsource hchunk hunread := by
    obtain ⟨b, w, w', hf, hg, hb⟩ := h.enough hsource hchunk hunread
    refine ⟨b, w, w', ?_, ?_, hb⟩
    · rw [bind_of_ok (evaluate_of_ok (hvalue _)), hf]
    · rw [bind_of_ok (evaluate_of_ok (hvalue _)), hg]
  short {r} hchunk hunread := by
    obtain ⟨e, s, he⟩ := h.short hchunk hunread
    exact ⟨e, s, by rw [bind_of_ok (evaluate_of_ok (hvalue _)), he]⟩

/-- A result is added that has a name of its own. -/
theorem add (scope : Scope) (result : Result) (hname : result.name ∉ Scope.names scope) :
    Exactly 0 (fun _ added => added = scope ++ [result]) (add scope result) (add scope result) := by
  have hadd : Decoder.add scope result = Pure.pure (scope ++ [result]) := by
    unfold Decoder.add Scope.add
    rw [if_neg (by simpa [Scope.contains, Scope.names] using hname)]
  rw [hadd]
  exact .pure fun _ => rfl

end Exactly

end Decoder

/-! ### Primitives and enums -/

theorem TextEncoding.exists_read {encoding : TextEncoding} (h : encoding.codec.Complete)
    (bytes : List UInt8) : ∃ text, encoding.read bytes = .ok text := by
  obtain ⟨chars, hchars⟩ := h.total bytes
  exact ⟨_, Except.map_ok_iff.2 ⟨chars, hchars, rfl⟩⟩

namespace Primitive

variable {type : Primitive} {options : Options} {bytes : List UInt8}

theorem exists_ofBytes (hcodec : type = .char → options.textEncoding.codec.Complete)
    (hstring : type ≠ .string) (bytes : List UInt8) : ∃ value, type.ofBytes options bytes = .ok value := by
  cases type with
  | char =>
    obtain ⟨text, htext⟩ := TextEncoding.exists_read (hcodec rfl) bytes
    exact ⟨.text text, Except.map_ok_iff.2 ⟨text, htext, rfl⟩⟩
  | string => exact absurd rfl hstring
  | _ => exact ⟨_, rfl⟩

theorem exists_ofBytes_char (hcodec : options.textEncoding.codec.Complete) (h : bytes.length = 1) :
    ∃ c, char.ofBytes options bytes = .ok (.text (String.ofList [c])) := by
  obtain ⟨byte, rfl⟩ := List.length_eq_one_iff.1 h
  obtain ⟨c, hread⟩ := hcodec.single byte
  refine ⟨c, ?_⟩
  rw [ofBytes, TextEncoding.read, hread]
  rfl

theorem exists_baseInteger? (h : type.isIntegral = true)
    (hcodec : type = .char → options.textEncoding.codec.Complete) (hlength : bytes.length = type.size) :
    ∃ value n, type.ofBytes options bytes = .ok value ∧ value.baseInteger? = some n := by
  cases type with
  | char =>
    obtain ⟨c, hvalue⟩ := exists_ofBytes_char (hcodec rfl) hlength
    refine ⟨_, c.toNat, hvalue, ?_⟩
    rw [Datum.baseInteger?, String.toList_ofList]
  | float | double | string => cases h
  | _ => exact ⟨_, _, rfl, rfl⟩

end Primitive

/-- That a result has a name and the places of a layout. -/
structure Laid (layout : Layout) (name : String) (start : Nat) (result : Result) : Prop where
  named : result.name = name
  sized : result.size = layout.size
  placed : Scope.places [result] = layout.places name start

/-- That results have the names and places of parts in a row. -/
structure LaidOut (parts : List (String × Layout)) (start : Nat) (fields : Scope) : Prop where
  named : Scope.names fields = parts.map Prod.fst
  sized : Scope.totalSize fields = Layout.partsSize parts
  placed : Scope.places fields = Layout.partsPlaces parts start

namespace Scope

theorem places_cons (result : Result) (rest : Scope) :
    places (result :: rest) = result.place :: places result.children ++ places rest := by
  simp [places, everywhere_cons]

theorem places_singleton (result : Result) :
    places [result] = result.place :: places result.children := by
  rw [places_cons]
  exact List.append_nil _

theorem places_append (left right : Scope) :
    places (left ++ right) = places left ++ places right := by
  simp [places, everywhere_append]

end Scope

/-- A result without results inside it. -/
theorem Laid.plain {result : Result} {name : String} {size start : Nat} (hname : result.name = name)
    (hsize : result.size = size) (hoffset : result.offset = start) (hchildren : result.children = []) :
    Laid (.plain size) name start result where
  named := hname
  sized := hsize
  placed := by
    rw [Scope.places_singleton, hchildren, Entry.place, hname, hsize, hoffset]
    rfl

namespace Decoder

namespace Exactly

variable {type : Primitive}

theorem primitive (hcodec : type = .char → context.options.textEncoding.codec.Complete)
    (hstring : type ≠ .string) (name : String) :
    Exactly type.size (fun _ read => read.2 = type.size ∧ ∃ bytes, bytes.length = type.size ∧
        type.ofBytes context.options bytes = .ok read.1)
      (primitive context type name) (primitive context type name) := by
  unfold Decoder.primitive
  rw [if_neg hstring]
  refine (read type.size name).bind_zero fun _ bytes hlength => ?_
  obtain ⟨value, hvalue⟩ := Primitive.exists_ofBytes hcodec hstring bytes
  dsimp only
  rw [hvalue]
  exact .pure fun _ _ => ⟨hlength, bytes, hlength, hvalue⟩

theorem baseInteger (hcodec : type = .char → context.options.textEncoding.codec.Complete)
    (hbase : type.isIntegral = true) (name : String) :
    Exactly type.size (fun _ read => read.2 = type.size)
      (baseInteger context type name) (baseInteger context type name) := by
  have hstring : type ≠ .string := by
    intro hstring
    rw [hstring] at hbase
    cases hbase
  unfold Decoder.baseInteger
  refine position_bind fun offset => ?_
  refine (primitive hcodec hstring name).bind_zero fun _ read hread => ?_
  obtain ⟨hsize, bytes, hlength, hvalue⟩ := hread
  obtain ⟨value, n, hsame, hn⟩ := Primitive.exists_baseInteger? hbase hcodec hlength
  obtain rfl := Except.ok.inj (hvalue.symm.trans hsame)
  dsimp only
  rw [hn]
  exact .pure fun _ _ _ => hsize

theorem enum {type : EnumDef} (hcodec : type.base = .char → context.options.textEncoding.codec.Complete)
    (hstrict : context.options.strictEnums = false) (hbase : type.base.isIntegral = true) (name : String)
    (comment : Option String) :
    Exactly type.base.size (Laid (.plain type.base.size) name)
      (enum context type name comment) (enum context type name comment) := by
  rw [enum_eq]
  refine position_bind fun offset => ?_
  refine (baseInteger hcodec hbase name).bind_zero fun start read hsize => ?_
  have hlisted : Exactly 0 (fun _ _ => True) (checkListed context type name read.1 offset)
      (checkListed context type name read.1 offset) := by
    unfold checkListed
    rw [hstrict]
    split
    · exact warn _
    · exact .pure fun _ => trivial
  refine hlisted.bind_zero fun _ _ _ => .pure fun _ _ _ hoffset => ?_
  exact .plain rfl (congrArg Nat.cast hsize) (congrArg Nat.cast hoffset.symm) (memberValue_children _ rfl)

end Exactly

/-! ### Bitfields -/

theorem places_memberResults (base : Primitive) (offset size : Nat) (members : List BitfieldMember)
    (bits : Int) : Scope.places (memberResults base offset size members bits)
      = members.map fun member => ⟨member.name, offset, size⟩ := by
  induction members generalizing bits with
  | nil => rfl
  | cons member rest ih =>
    rw [memberResults, Scope.places_cons, ih, List.map_cons]
    rfl

namespace Exactly

/-- Members that are not too wide and have names of their own are added one by one. -/
theorem bitfieldMembers (base : Primitive) (offset size : Nat) {members : List BitfieldMember}
    (hwidths : ∀ member ∈ members, member.width ≤ 64) (bits : Int) (scope : Scope)
    (hnames : (Scope.names scope ++ members.map (·.name)).Nodup) :
    Exactly 0 (fun _ added => added = scope ++ memberResults base offset size members bits)
      (bitfieldMembers base offset size members bits scope)
      (bitfieldMembers base offset size members bits scope) := by
  induction members generalizing bits scope with
  | nil => exact .pure fun _ => (List.append_nil scope).symm
  | cons member rest ih =>
    have hwidth := hwidths member List.mem_cons_self
    have hlargest : 64 ≤ memoryBits := by decide
    have hmask : memoryBits < widestMember := by decide
    unfold Decoder.bitfieldMembers
    rw [if_neg (by omega), if_neg (by omega)]
    have hname : member.name ∉ Scope.names scope := by
      intro hmem
      exact (List.nodup_append.1 hnames).2.2 _ hmem _ List.mem_cons_self rfl
    refine (add scope _ hname).bind_zero fun _ added hadded => ?_
    subst hadded
    refine (ih (fun other hother => hwidths other (List.mem_cons_of_mem _ hother)) _ _ ?_).mono ?_
    · rw [Scope.names, List.map_append, List.append_assoc]
      exact hnames
    · intro _ fields hfields _
      rw [hfields, List.append_assoc]
      rfl

theorem bitfield {type : BitfieldDef}
    (hcodec : type.base = .char → context.options.textEncoding.codec.Complete)
    (hbase : type.base.isIntegral = true) (hdistinct : (type.members.map (·.name)).Nodup)
    (hwidths : ∀ member ∈ type.members, member.width ≤ 64) (name : String) (comment : Option String) :
    Exactly type.base.size
      (Laid (.shared type.base.size (type.members.map (·.name))) name)
      (bitfield context type name comment) (bitfield context type name comment) := by
  unfold Decoder.bitfield
  refine position_bind fun offset => ?_
  refine (baseInteger hcodec hbase name).bind_zero fun start read hsize => ?_
  obtain ⟨raw, size⟩ := read
  obtain rfl : size = type.base.size := hsize
  refine (bitfieldMembers type.base offset type.base.size hwidths raw [] hdistinct).bind_zero
    fun _ members hmembers => .pure fun _ _ _ hoffset => ⟨rfl, rfl, ?_⟩
  rw [hmembers, Scope.places_singleton]
  show _ :: Scope.places (memberResults _ _ _ _ _) = _
  rw [places_memberResults, hoffset, Layout.places, List.map_map]
  rfl

/-! ### Results in a row -/

theorem addLaid {layout : Layout} {name : String} {x y : Decoder Result}
    (h : Exactly layout.size (Laid layout name) x y) {scope : Scope} (hname : name ∉ Scope.names scope) :
    Exactly layout.size
      (fun start added => ∃ result, Laid layout name start result ∧ added = scope ++ [result])
      (do Decoder.add scope (← x)) (do Decoder.add scope (← y)) :=
  h.bind_zero fun _ result hresult =>
    (add scope result (hresult.named ▸ hname)).mono fun _ _ hadded _ => ⟨result, hresult, hadded⟩

/-- Elements in a row that are laid out alike. -/
theorem elements {layout : Layout} {f g : String → Decoder Result}
    (h : ∀ name, Exactly layout.size (Laid layout name) (f name) (g name))
    (name : String) (count index : Nat) (done : List Result) :
    Exactly (count * layout.size)
      (fun start items => ∃ more, items = done.reverse ++ more ∧
        Scope.totalSize more = (count * layout.size : Nat) ∧
        Scope.places more = (List.range count).flatMap fun number =>
          layout.places (indexedName name (index + number)) (start + number * layout.size))
      (elements f name count index done) (elements g name count index done) := by
  induction count generalizing index done with
  | zero =>
    rw [Nat.zero_mul]
    exact .pure fun _ => ⟨[], (List.append_nil _).symm, rfl, rfl⟩
  | succ count ih =>
    rw [Nat.succ_mul, Nat.add_comm]
    refine (h (indexedName name index)).bind fun start result hresult => (ih (index + 1) _).mono ?_
    rintro _ items ⟨more, hitems, hsize, hplaces⟩ rfl
    refine ⟨result :: more, by simp [hitems], ?_, ?_⟩
    · rw [Scope.totalSize_cons, hresult.sized, hsize, Int.natCast_add]
    · have hcons : result :: more = [result] ++ more := rfl
      rw [hcons, Scope.places_append, hresult.placed, hplaces, List.range_succ_eq_map, List.flatMap_cons,
        List.flatMap_map]
      simp only [Nat.zero_mul, Nat.add_zero, Nat.succ_eq_add_one, Nat.add_assoc, Nat.add_left_comm,
        Nat.succ_mul, Nat.add_comm]

end Exactly

end Decoder

end BinarySchema
