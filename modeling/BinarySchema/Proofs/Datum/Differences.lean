import BinarySchema.Datum.Match

/-!
# Where differences come from

What a comparison of data can say is about the data: the message on a difference needs no numerals but
those of the integers inside of them, and a comparison breaks off only for one of these integers, when it
is beyond the doubles. `Accounts` says so of an outcome, and one induction over what is expected shows
that it holds of every comparison.
-/

namespace BinarySchema

namespace Datum

/-- That an integer stands in a value, or in the lists and maps within. -/
inductive Inside (n : Int) : Datum → Prop
  | int : Inside n (.int n)
  | item {items : List Datum} {item : Datum} (hitem : item ∈ items) (hinside : Inside n item) :
      Inside n (.list items)
  | key {entries : List (Datum × Datum)} {entry : Datum × Datum} (hentry : entry ∈ entries)
      (hinside : Inside n entry.1) : Inside n (.map entries)
  | value {entries : List (Datum × Datum)} {entry : Datum × Datum} (hentry : entry ∈ entries)
      (hinside : Inside n entry.2) : Inside n (.map entries)

/-! ### Parts -/

/-- That a value has no integers but those of another one. -/
structure Part (part whole : Datum) : Prop where
  inside {n : Int} : Inside n part → Inside n whole
  numerals : whole.hasNumerals = true → part.hasNumerals = true

namespace Part

variable {items : List Datum} {entries : List (Datum × Datum)} {entry : Datum × Datum}
  {key value item whole : Datum}

theorem refl (whole : Datum) : Part whole whole := ⟨id, id⟩

theorem head_list : Part item (.list (item :: items)) where
  inside := .item List.mem_cons_self
  numerals h := (Bool.and_eq_true_iff.1 h).1

theorem tail_list : Part (.list items) (.list (item :: items)) where
  inside := by
    rintro n (_ | ⟨hitem, hinside⟩)
    exact .item (List.mem_cons_of_mem _ hitem) hinside
  numerals h := (Bool.and_eq_true_iff.1 h).2

theorem tail_map : Part (.map entries) (.map (entry :: entries)) where
  inside := by
    rintro n (_ | _ | ⟨hentry, hinside⟩ | ⟨hentry, hinside⟩)
    · exact .key (List.mem_cons_of_mem _ hentry) hinside
    · exact .value (List.mem_cons_of_mem _ hentry) hinside
  numerals h := (Bool.and_eq_true_iff.1 h).2

theorem head_key : Part key (.map ((key, value) :: entries)) where
  inside hinside := .key List.mem_cons_self hinside
  numerals h := (Bool.and_eq_true_iff.1 (Bool.and_eq_true_iff.1 h).1).1

theorem head_value : Part value (.map ((key, value) :: entries)) where
  inside hinside := .value List.mem_cons_self hinside
  numerals h := (Bool.and_eq_true_iff.1 (Bool.and_eq_true_iff.1 h).1).2

theorem trans {between : Datum} (h : Part value between) (h' : Part between whole) : Part value whole :=
  ⟨fun hinside => h'.inside (h.inside hinside), fun hnumerals => h.numerals (h'.numerals hnumerals)⟩

theorem of_mem (hentry : entry ∈ entries) : Part entry.2 (.map entries) := by
  induction entries with
  | nil => cases hentry
  | cons first rest ih =>
    rcases List.mem_cons.1 hentry with rfl | hentry
    · exact head_value
    · exact (ih hentry).trans tail_map

theorem of_lookup? (h : lookup? entries key = some value) : Part value (.map entries) := by
  obtain ⟨entry, hfind, rfl⟩ := Option.map_eq_some_iff.1 h
  exact of_mem (List.mem_of_find?_eq_some hfind)

/-- The values of a map, as a list. -/
theorem values : Part (.list (entries.map Prod.snd)) (.map entries) where
  inside := by
    rintro n (_ | ⟨hitem, hinside⟩)
    obtain ⟨entry, hentry, rfl⟩ := List.mem_map.1 hitem
    exact .value hentry hinside
  numerals h := by
    induction entries with
    | nil => rfl
    | cons first rest ih =>
      exact Bool.and_eq_true_iff.2 ⟨head_value.numerals h, ih (tail_map.numerals h)⟩

theorem of_listed? (h : whole.listed? = some items) : Part (.list items) whole := by
  cases whole with
  | list given =>
    obtain rfl := Option.some.inj h
    exact refl _
  | map given =>
    obtain rfl := Option.some.inj h
    exact values
  | _ => cases h

end Part

/-! ### Outcomes of comparisons -/

/-- That an outcome of comparing two values is about them: a difference can be written if they can, and a
fault is one of an integer in them. -/
structure Accounts (expected actual : Datum) (outcome : Except Number.RangeFault (Option Mismatch)) :
    Prop where
  writable {difference : Mismatch} : outcome = .ok (some difference) → expected.hasNumerals = true →
    actual.hasNumerals = true → difference.hasNumerals = true
  range {fault : Number.RangeFault} : outcome = .error fault →
    ∃ n, Number.Double.ofInt? n = none ∧ (Inside n expected ∨ Inside n actual)

theorem exists_beyond {value : Datum} {quantity : Number.Quantity} {fault : Number.RangeFault}
    (hquantity : value.quantity? = some quantity) (h : quantity.toDouble = .error fault) :
    ∃ n, Number.Double.ofInt? n = none ∧ Inside n value := by
  cases value with
  | int n =>
    obtain rfl := Option.some.inj hquantity
    refine ⟨n, ?_, .int⟩
    unfold Number.Quantity.toDouble at h
    dsimp only at h
    split at h
    · cases h
    · assumption
  | double x =>
    obtain rfl := Option.some.inj hquantity
    cases h
  | _ => cases hquantity

namespace Accounts

variable {expected actual expected' actual' : Datum}
  {outcome between : Except Number.RangeFault (Option Mismatch)}

theorem same : Accounts expected actual (.ok none) := ⟨nofun, nofun⟩

theorem of_difference {difference : Mismatch} (h : expected.hasNumerals = true →
    actual.hasNumerals = true → difference.hasNumerals = true) :
    Accounts expected actual (.ok (some difference)) where
  writable houtcome := by
    obtain rfl := Option.some.inj (Except.ok.inj houtcome)
    exact h
  range := nofun

theorem mono (h : Accounts expected actual outcome) (hexpected : Part expected expected')
    (hactual : Part actual actual') : Accounts expected' actual' outcome where
  writable houtcome hleft hright :=
    h.writable houtcome (hexpected.numerals hleft) (hactual.numerals hright)
  range houtcome := by
    obtain ⟨n, hbeyond, hinside⟩ := h.range houtcome
    exact ⟨n, hbeyond, hinside.imp hexpected.inside hactual.inside⟩

/-- A comparison of parts before the rest, where a difference is put into its place. -/
theorem before {place : Mismatch → Mismatch} (hbetween : Accounts expected actual between)
    (houtcome : Accounts expected actual outcome) (hplace : ∀ inner, expected.hasNumerals = true →
      inner.hasNumerals = true → (place inner).hasNumerals = true) :
    Accounts expected actual (do
      match ← between with
      | some inner => return some (place inner)
      | none => outcome) := by
  cases between with
  | error fault => exact ⟨nofun, fun _ => hbetween.range rfl⟩
  | ok difference? =>
    cases difference? with
    | none => exact houtcome
    | some inner =>
      exact of_difference fun hleft hright => hplace inner hleft (hbetween.writable rfl hleft hright)

theorem distance {left right : Number.Quantity} {fault : Number.RangeFault}
    (hleft : expected.quantity? = some left) (hright : actual.quantity? = some right)
    (h : left.distance right = .error fault) :
    ∃ n, Number.Double.ofInt? n = none ∧ (Inside n expected ∨ Inside n actual) := by
  unfold Number.Quantity.distance at h
  split at h
  · cases h
  cases hfirst : left.toDouble with
  | error other =>
    obtain ⟨n, hbeyond, hinside⟩ := exists_beyond hleft hfirst
    exact ⟨n, hbeyond, .inl hinside⟩
  | ok x =>
    rw [hfirst] at h
    cases hsecond : right.toDouble with
    | error other =>
      obtain ⟨n, hbeyond, hinside⟩ := exists_beyond hright hsecond
      exact ⟨n, hbeyond, .inr hinside⟩
    | ok y =>
      rw [hsecond] at h
      cases h

theorem simple (tolerance : Number.Quantity) :
    Accounts expected actual (mismatchSimple tolerance expected actual) := by
  have hsame (same : Bool) :
      Accounts expected actual (.ok (if same then none else some (.different expected actual))) := by
    cases same
    · exact of_difference fun hleft hright => Bool.and_eq_true_iff.2 ⟨hleft, hright⟩
    · exact .same
  unfold mismatchSimple
  split
  · rename_i left right hleft hright
    cases hdistance : left.distance right with
    | error fault => exact ⟨nofun, fun _ => distance hleft hright hdistance⟩
    | ok distance => exact hsame _
  · exact hsame _

end Accounts

mutual

theorem mismatch?_accounts (tolerance : Number.Quantity) : ∀ expected actual : Datum,
    Accounts expected actual (mismatch? tolerance expected actual)
  | .map wanted, actual => by
    cases actual with
    | map given => exact mismatchEntries?_accounts tolerance wanted given
    | _ => exact .simple tolerance
  | .list wanted, actual => by
    unfold mismatch?
    split
    · exact .of_difference fun _ hactual => hactual
    · rename_i given hgiven
      split
      · exact (mismatchItems?_accounts tolerance 0 wanted given).mono (.refl _) (.of_listed? hgiven)
      · exact .of_difference fun _ _ => rfl
  | .null, _ | .bool _, _ | .int _, _ | .double _, _ | .text _, _ | .codes _, _ | .bytes _, _
  | .address _, _ | .date _, _ | .time _, _ | .scope _, _ => by
    unfold mismatch?
    exact .simple tolerance
termination_by structural expected => expected

theorem mismatchEntries?_accounts (tolerance : Number.Quantity) :
    ∀ wanted given : List (Datum × Datum),
      Accounts (.map wanted) (.map given) (mismatchEntries? tolerance wanted given)
  | [], _ => .same
  | (key, value) :: rest, given => by
    have hrest := mismatchEntries?_accounts tolerance rest given
    unfold mismatchEntries?
    split
    · exact .of_difference fun hleft _ => Part.head_key.numerals hleft
    · rename_i actual hactual
      have hvalue := mismatch?_accounts tolerance value actual
      refine (hvalue.mono .head_value (.of_lookup? hactual)).before (hrest.mono .tail_map (.refl _)) ?_
      exact fun inner hleft hinner =>
        Bool.and_eq_true_iff.2 ⟨Part.head_key.numerals hleft, hinner⟩
termination_by structural wanted => wanted

theorem mismatchItems?_accounts (tolerance : Number.Quantity) :
    ∀ (index : Nat) (wanted given : List Datum),
      Accounts (.list wanted) (.list given) (mismatchItems? tolerance index wanted given)
  | index, value :: rest, actual :: more => by
    have hvalue := mismatch?_accounts tolerance value actual
    have hrest := mismatchItems?_accounts tolerance (index + 1) rest more
    unfold mismatchItems?
    exact (hvalue.mono .head_list .head_list).before (hrest.mono .tail_list .tail_list)
      fun inner _ hinner => hinner
  | _, [], _ => .same
  | _, _ :: _, [] => .same
termination_by structural _ wanted => wanted

end

end Datum

end BinarySchema
