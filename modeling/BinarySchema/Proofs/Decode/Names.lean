import Mathlib
import BinarySchema.Proofs.Decode.Step

/-!
# Names of results

A result has the name that it was decoded under. The elements of an array, and the fields of an iteration
of a loop, have a name with a number behind it. Such a name says what the name and the number are, since
the last bracket in it is the one in front of the number; so elements never share a name, and neither do
fields of different iterations.
-/

namespace BinarySchema.Decoder

variable {context : DecodeContext} {enter : List Node → Decoder Scope} {r s : Reading}

/-! ### Names with numbers -/

theorem bracket_not_mem_numeral (index : Nat) : '[' ∉ (Nat.repr index).toList := by
  intro hmem
  rw [Nat.repr, String.toList_ofList] at hmem
  have hdigit := Nat.isDigit_of_mem_toDigits (by decide) (by decide) hmem
  exact absurd hdigit (by decide)

theorem toList_indexedName (name : String) (index : Nat) :
    (indexedName name index).toList = name.toList ++ '[' :: ((Nat.repr index).toList ++ [']']) := by
  simp [indexedName, String.toList_append, toString]

theorem append_cons_inj {c : Char} {front other behind rest : List Char} (hfront : c ∉ front)
    (hother : c ∉ other) (h : front ++ c :: behind = other ++ c :: rest) :
    front = other ∧ behind = rest := by
  have hfirst (chars behind : List Char) (hchars : c ∉ chars) :
      (chars ++ c :: behind).takeWhile (· != c) = chars := by
    rw [List.takeWhile_append_of_pos, List.takeWhile_cons_of_neg (by simp), List.append_nil]
    intro a ha
    exact bne_iff_ne.2 fun heq => hchars (heq ▸ ha)
  have hsame : front = other := by
    rw [← hfirst front behind hfront, h, hfirst other rest hother]
  subst hsame
  exact ⟨rfl, (List.cons.inj (List.append_cancel_left h)).2⟩

/-- A name with a number is made of no other name and number. -/
theorem indexedName_inj {name other : String} {index number : Nat} :
    indexedName name index = indexedName other number ↔ name = other ∧ index = number := by
  constructor
  · intro h
    have hchars := congrArg String.toList h
    rw [toList_indexedName, toList_indexedName] at hchars
    -- Read from behind, the first bracket that opens is the one in front of the number.
    have hreversed := congrArg List.reverse hchars
    simp only [List.reverse_append, List.reverse_cons, List.reverse_nil, List.nil_append,
      List.append_assoc, List.cons_append, List.cons.injEq, true_and] at hreversed
    obtain ⟨hnumeral, hname⟩ := append_cons_inj
      (mt List.mem_reverse.1 (bracket_not_mem_numeral index))
      (mt List.mem_reverse.1 (bracket_not_mem_numeral number)) hreversed
    have hnumeral := String.toList_inj.1 (List.reverse_inj.1 hnumeral)
    exact ⟨String.toList_inj.1 (List.reverse_inj.1 hname), Nat.repr_inj.1 hnumeral⟩
  · intro ⟨hname, hindex⟩
    rw [hname, hindex]

/-! ### Names of values -/

theorem value_name {type : TypeRef} {name : String} {comment : Option String} {result : Result}
    (h : value context enter type name comment r = .ok result s) : result.name = name := by
  cases value_ok h with
  | primitive _ => rfl
  | struct _ _ => rfl
  | enum _ run =>
    obtain ⟨raw, size, t, -, -, rfl⟩ := enum_ok run
    rfl
  | bitfield _ run =>
    obtain ⟨raw, size, -, rfl⟩ := bitfield_ok run
    rfl

theorem elements_names {element : String → Decoder Result}
    (helement : ∀ name r result s, element name r = .ok result s → result.name = name)
    {name : String} {count index : Nat} {done items : List Result}
    (h : elements element name count index done r = .ok items s) :
    Scope.names items
      = (Scope.names done).reverse ++ (List.range' index count).map (indexedName name) := by
  induction count generalizing index done r with
  | zero =>
    obtain ⟨rfl, rfl⟩ := pure_ok_iff.1 h
    simp [Scope.names]
  | succ count ih =>
    obtain ⟨result, t, hrun, hrest⟩ := bind_ok_iff.1 h
    rw [ih hrest, List.range'_succ]
    simp [Scope.names, helement _ _ _ _ hrun]

theorem elements_distinct {element : String → Decoder Result}
    (helement : ∀ name r result s, element name r = .ok result s → result.name = name)
    {name : String} {count : Nat} {items : List Result}
    (h : elements element name count 0 [] r = .ok items s) : (Scope.names items).Nodup := by
  rw [elements_names helement h]
  apply List.Nodup.map
  · intro index number heq
    exact (indexedName_inj.1 heq).2
  · exact List.nodup_range'

end BinarySchema.Decoder
