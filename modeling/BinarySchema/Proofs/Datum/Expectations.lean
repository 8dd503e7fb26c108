import BinarySchema.Proofs.Datum.Reflexive
import BinarySchema.Proofs.TestVector.Outcome

/-!
# Expectations that are met

What a comparison with the default tolerance decides, for data without doubles. `Meets` is the relation
behind it, said without the order of keys and without the comparison: a map meets what is expected under
the keys that are asked for, a list or the values of a map meet a list place by place, and a value without
parts meets what it is equal to.

The tolerance is above zero and below one, so it lets no two integers pass for each other. A key is found
in a map exactly if the map has it, since keys that are text are equal to nothing but themselves.
-/

namespace BinarySchema

/-! ### The tolerance -/

namespace Number

theorem Double.compareInt?_tolerance (n : Nat) :
    Double.compareInt? ⟨0x3f50624dd2f1a9fc⟩ n
      = some (compare (4611686018427388 : Int) (n * 4611686018427387904)) := by
  have hview : (⟨0x3f50624dd2f1a9fc⟩ : Double).view = .finite false 4611686018427388 (-62) := by
    decide +kernel
  have hsign : ¬ (n : Int) < 0 := by omega
  simp [Double.compareInt?, hview, Double.scaled, hsign]

theorem Quantity.atMost_defaultTolerance (distance : Nat) :
    (Quantity.int distance).atMost Datum.defaultTolerance = decide (distance = 0) := by
  have hcompare : (Quantity.int distance).compare? Datum.defaultTolerance
      = (Double.compareInt? ⟨0x3f50624dd2f1a9fc⟩ distance).map Ordering.swap := rfl
  unfold atMost
  rw [hcompare, Double.compareInt?_tolerance, Option.map_some, Option.any_some]
  by_cases hzero : distance = 0
  · subst hzero
    rfl
  · have hless : compare (4611686018427388 : Int) (distance * 4611686018427387904) = .lt := by
      apply compare_lt_iff_lt.2
      omega
    rw [hless, decide_eq_false hzero]
    rfl

end Number

/-! ### Messages -/

theorem Text.append_ne_empty {front back : String} (h : front ≠ "" ∨ back ≠ "") :
    front ++ back ≠ "" := by
  rw [Ne, String.append_eq_empty_iff]
  exact not_and_or.2 h

theorem Mismatch.message_ne_empty (difference : Mismatch) : difference.message ≠ "" := by
  unfold message
  split
  -- A message about a key starts with the key, and all others with words.
  case h_2 key inner =>
    apply Text.append_ne_empty (.inl _)
    apply Text.append_ne_empty (.inr _)
    decide
  all_goals
    repeat apply Text.append_ne_empty (.inl _)
    decide

namespace Datum

/-! ### The relation -/

/-- Data without doubles, with integers that have numerals, and with maps that have text for keys and
each key once. -/
inductive Discrete : Datum → Prop where
  | null : Discrete .null
  | bool (value : Bool) : Discrete (.bool value)
  | int {value : Int} (hnumeral : Number.hasNumeral value = true) : Discrete (.int value)
  | text (value : String) : Discrete (.text value)
  | codes (points : List Nat) : Discrete (.codes points)
  | list {items : List Datum} (hitems : ∀ item ∈ items, Discrete item) : Discrete (.list items)
  | map {entries : List (Datum × Datum)} (hkeys : ∀ entry ∈ entries, entry.1.IsText)
      (hdistinct : (entries.map Prod.fst).Nodup) (hvalues : ∀ entry ∈ entries, Discrete entry.2) :
      Discrete (.map entries)

/-- That data are as they were expected: equal, if they have no parts, and else by their parts. A map is
only asked for the keys that are expected, and what it has under them is given by `found`. -/
inductive Meets : (expected actual : Datum) → Prop where
  | null : Meets .null .null
  | bool (value : Bool) : Meets (.bool value) (.bool value)
  | int (value : Int) : Meets (.int value) (.int value)
  | text (value : String) : Meets (.text value) (.text value)
  | codes (points : List Nat) : Meets (.codes points) (.codes points)
  | map {wanted given : List (Datum × Datum)} (found : Datum × Datum → Datum)
      (hfound : ∀ entry ∈ wanted, (entry.1, found entry) ∈ given)
      (hmeets : ∀ entry ∈ wanted, Meets entry.2 (found entry)) : Meets (.map wanted) (.map given)
  | list {wanted given : List Datum} (hitems : List.Forall₂ Meets wanted given) :
      Meets (.list wanted) (.list given)
  | values {wanted : List Datum} {given : List (Datum × Datum)}
      (hitems : List.Forall₂ Meets wanted (given.map Prod.snd)) : Meets (.list wanted) (.map given)

section

variable {expected actual key value : Datum} {wanted given entries : List (Datum × Datum)}
  {items others : List Datum}

theorem IsText.hasNumerals (h : key.IsText) : key.hasNumerals = true := by
  cases key with
  | text s => rfl
  | codes points => rfl
  | _ => cases h

theorem Discrete.hasNumerals (h : actual.Discrete) : actual.hasNumerals = true := by
  induction h with
  | int hnumeral => exact hnumeral
  | list _ ih => exact itemsHaveNumerals_iff.2 ih
  | map hkeys _ _ ih =>
    apply entriesHaveNumerals_iff.2
    exact fun entry hentry => ⟨(hkeys entry hentry).hasNumerals, ih entry hentry⟩
  | _ => rfl

/-! ### Values without parts -/

theorem Discrete.meets_iff_eq (hexpected : expected.Discrete) (hsimple : expected.listed? = none) :
    expected.Meets actual ↔ expected = actual := by
  constructor
  · intro h
    cases h with
    | map => cases hsimple
    | list => cases hsimple
    | values => cases hsimple
    | _ => rfl
  · rintro rfl
    cases hexpected with
    | null => exact .null
    | bool b => exact .bool b
    | int => exact .int _
    | text s => exact .text s
    | codes points => exact .codes points
    | list => cases hsimple
    | map => cases hsimple

theorem tells_mismatchSimple (hexpected : expected.hasNumerals = true)
    (hactual : actual.hasNumerals = true) (hquantity : expected.quantity? = none) :
    Tells (sameValue expected actual = true) (mismatchSimple defaultTolerance expected actual) := by
  unfold mismatchSimple
  rw [hquantity]
  cases hsame : sameValue expected actual with
  | true => exact rfl
  | false => exact ⟨Bool.false_ne_true, Bool.and_eq_true_iff.2 ⟨hexpected, hactual⟩⟩

/-- Integers differ by a number that the tolerance does not admit, unless they are equal. -/
theorem tells_mismatchSimple_int {n : Int} (hexpected : Number.hasNumeral n = true)
    (hactual : actual.Discrete) :
    Tells (.int n = actual) (mismatchSimple defaultTolerance (.int n) actual) := by
  have hdifferent (hnot : actual.quantity? = none) (hsame : sameValue (.int n) actual = false)
      (hne : .int n ≠ actual) :
      Tells (.int n = actual) (mismatchSimple defaultTolerance (.int n) actual) := by
    unfold mismatchSimple
    rw [hnot, hsame]
    exact ⟨hne, Bool.and_eq_true_iff.2 ⟨hexpected, hactual.hasNumerals⟩⟩
  cases hactual with
  | @int m hnumeral =>
    have hdistance : Number.Quantity.distance (.int n) (.int m) = .ok (.int (n - m).natAbs) := rfl
    have houtcome : mismatchSimple defaultTolerance (.int n) (.int m)
        = .ok (if (n - m).natAbs = 0 then none else some (.different (.int n) (.int m))) := by
      unfold mismatchSimple quantity?
      dsimp only
      rw [hdistance]
      show Except.ok _ = _
      rw [Number.Quantity.atMost_defaultTolerance]
      simp only [decide_eq_true_eq]
    rw [houtcome]
    by_cases hequal : n = m
    · rw [if_pos (by omega)]
      exact congrArg Datum.int hequal
    · rw [if_neg (by omega)]
      exact ⟨fun h => hequal (Datum.int.inj h), Bool.and_eq_true_iff.2 ⟨hexpected, hnumeral⟩⟩
  | _ => exact hdifferent rfl rfl nofun

theorem sameValue_iff_eq (hexpected : expected.Discrete) (hsimple : expected.listed? = none)
    (hquantity : expected.quantity? = none) : sameValue expected actual = true ↔ expected = actual := by
  cases hexpected with
  | int => cases hquantity
  | list => cases hsimple
  | map => cases hsimple
  | _ => cases actual <;> simp [sameValue, sameContent]

theorem tells_of_simple (hexpected : expected.Discrete) (hsimple : expected.listed? = none)
    (hactual : actual.Discrete) :
    Tells (expected.Meets actual) (mismatch? defaultTolerance expected actual) := by
  have hmismatch : mismatch? defaultTolerance expected actual
      = mismatchSimple defaultTolerance expected actual := by
    cases hexpected with
    | list => cases hsimple
    | map => cases hsimple
    | _ => rfl
  rw [hmismatch]
  cases hquantity : expected.quantity? with
  | none =>
    have hsame := tells_mismatchSimple hexpected.hasNumerals hactual.hasNumerals hquantity
    apply hsame.congr
    rw [sameValue_iff_eq hexpected hsimple hquantity, hexpected.meets_iff_eq hsimple]
  | some number =>
    cases hexpected with
    | int hnumeral =>
      apply (tells_mismatchSimple_int hnumeral hactual).congr
      exact (Discrete.meets_iff_eq (.int hnumeral) rfl).symm
    | _ => cases hquantity

/-! ### Maps -/

theorem lookup?_eq_some_iff (hkey : key.IsText) (hdistinct : (given.map Prod.fst).Nodup) :
    lookup? given key = some value ↔ (key, value) ∈ given := by
  induction given with
  | nil => simp [lookup?]
  | cons entry rest ih =>
    obtain ⟨first, other⟩ := entry
    obtain ⟨hfirst, hrest⟩ := List.nodup_cons.1 hdistinct
    rw [lookup?_cons, List.mem_cons, Prod.mk.injEq]
    by_cases hsame : key = first
    · subst hsame
      have hnot : (key, value) ∉ rest := fun hmem => hfirst (List.mem_map.2 ⟨_, hmem, rfl⟩)
      rw [if_pos ((sameKey_iff_eq hkey).2 rfl), Option.some_inj, or_iff_left hnot]
      exact ⟨fun h => ⟨rfl, h.symm⟩, fun h => h.2.symm⟩
    · rw [if_neg (mt (sameKey_iff_eq hkey).1 hsame), ih hrest, or_iff_right]
      exact fun h => hsame h.1

theorem meets_map_iff :
    (Datum.map wanted).Meets (.map given)
      ↔ ∀ entry ∈ wanted, ∃ actual, (entry.1, actual) ∈ given ∧ entry.2.Meets actual := by
  constructor
  · intro h
    cases h with
    | map found hfound hmeets =>
      exact fun entry hentry => ⟨found entry, hfound entry hentry, hmeets entry hentry⟩
  · intro h
    choose! found hfound using h
    exact .map found (fun entry hentry => (hfound entry hentry).1) fun entry hentry =>
      (hfound entry hentry).2

/-- The keys that are asked for, one after the other. -/
theorem tells_mismatchEntries? (hkeys : ∀ entry ∈ wanted, entry.1.IsText)
    (hdistinct : (given.map Prod.fst).Nodup) (hgiven : ∀ entry ∈ given, entry.2.Discrete)
    (hvalues : ∀ entry ∈ wanted, ∀ {actual : Datum}, actual.Discrete →
      Tells (entry.2.Meets actual) (mismatch? defaultTolerance entry.2 actual)) :
    Tells (∀ entry ∈ wanted, ∃ actual, (entry.1, actual) ∈ given ∧ entry.2.Meets actual)
      (mismatchEntries? defaultTolerance wanted given) := by
  induction wanted with
  | nil => exact nofun
  | cons entry rest ih =>
    obtain ⟨hkey, hkeys⟩ := List.forall_mem_cons.1 hkeys
    obtain ⟨hvalue, hvalues⟩ := List.forall_mem_cons.1 hvalues
    have hrest := ih hkeys hvalues
    unfold mismatchEntries?
    cases hlookup : lookup? given entry.1 with
    | none =>
      refine ⟨fun hall => ?_, hkey.hasNumerals⟩
      obtain ⟨actual, hmem, -⟩ := hall entry List.mem_cons_self
      rw [(lookup?_eq_some_iff hkey hdistinct).2 hmem] at hlookup
      cases hlookup
    | some actual =>
      have hmem := (lookup?_eq_some_iff hkey hdistinct).1 hlookup
      have hfirst : entry.2.Meets actual
          ↔ ∃ other, (entry.1, other) ∈ given ∧ entry.2.Meets other := by
        constructor
        · exact fun h => ⟨actual, hmem, h⟩
        · rintro ⟨other, hother, h⟩
          have hequal := hlookup.symm.trans ((lookup?_eq_some_iff hkey hdistinct).2 hother)
          exact Option.some.inj hequal ▸ h
      rw [List.forall_mem_cons]
      apply ((hvalue (hgiven _ hmem)).congr hfirst).before hrest
      exact fun inner hinner => Bool.and_eq_true_iff.2 ⟨hkey.hasNumerals, hinner⟩

theorem tells_of_map (hexpected : (Datum.map wanted).Discrete) (hactual : actual.Discrete)
    (hvalues : ∀ entry ∈ wanted, ∀ {actual : Datum}, actual.Discrete →
      Tells (entry.2.Meets actual) (mismatch? defaultTolerance entry.2 actual)) :
    Tells ((Datum.map wanted).Meets actual) (mismatch? defaultTolerance (.map wanted) actual) := by
  have hother (hsimple : mismatch? defaultTolerance (.map wanted) actual
        = mismatchSimple defaultTolerance (.map wanted) actual)
      (hsame : sameValue (.map wanted) actual = false) (hnot : ¬ (Datum.map wanted).Meets actual) :
      Tells ((Datum.map wanted).Meets actual) (mismatch? defaultTolerance (.map wanted) actual) := by
    rw [hsimple]
    apply (tells_mismatchSimple hexpected.hasNumerals hactual.hasNumerals rfl).congr
    rw [hsame]
    exact iff_of_false Bool.false_ne_true hnot
  cases hactual with
  | map _ hdistinct hgiven =>
    cases hexpected with
    | map hkeys =>
      exact (tells_mismatchEntries? hkeys hdistinct hgiven hvalues).congr meets_map_iff.symm
  | _ => exact hother rfl rfl nofun

/-! ### Lists -/

theorem tells_mismatchItems? (hlength : items.length = others.length) (index : Nat)
    (hothers : ∀ item ∈ others, item.Discrete)
    (hitems : ∀ item ∈ items, ∀ {actual : Datum}, actual.Discrete →
      Tells (item.Meets actual) (mismatch? defaultTolerance item actual)) :
    Tells (List.Forall₂ Meets items others)
      (mismatchItems? defaultTolerance index items others) := by
  induction items generalizing others index with
  | nil =>
    cases others with
    | nil => exact .nil
    | cons => cases hlength
  | cons item rest ih =>
    cases others with
    | nil => cases hlength
    | cons other more =>
      obtain ⟨hitem, hitems⟩ := List.forall_mem_cons.1 hitems
      obtain ⟨hother, hothers⟩ := List.forall_mem_cons.1 hothers
      rw [List.forall₂_cons]
      unfold mismatchItems?
      apply (hitem hother).before (ih (Nat.succ.inj hlength) (index + 1) hothers hitems)
      exact fun _ hinner => hinner

theorem meets_list_iff :
    (Datum.list items).Meets actual
      ↔ ∃ given, actual.listed? = some given ∧ List.Forall₂ Meets items given := by
  constructor
  · intro h
    cases h with
    | list hitems => exact ⟨_, rfl, hitems⟩
    | values hitems => exact ⟨_, rfl, hitems⟩
  · rintro ⟨given, hlisted, hitems⟩
    unfold listed? at hlisted
    split at hlisted
    · cases hlisted
      exact .list hitems
    · cases hlisted
      exact .values hitems
    · cases hlisted

theorem Discrete.of_listed (hactual : actual.Discrete) (hlisted : actual.listed? = some others) :
    ∀ item ∈ others, item.Discrete := by
  cases hactual with
  | list hitems =>
    cases hlisted
    exact hitems
  | map _ _ hvalues =>
    cases hlisted
    exact List.forall_mem_map.2 hvalues
  | _ => cases hlisted

theorem tells_of_list (hactual : actual.Discrete)
    (hitems : ∀ item ∈ items, ∀ {actual : Datum}, actual.Discrete →
      Tells (item.Meets actual) (mismatch? defaultTolerance item actual)) :
    Tells ((Datum.list items).Meets actual) (mismatch? defaultTolerance (.list items) actual) := by
  unfold mismatch?
  cases hlisted : actual.listed? with
  | none =>
    refine ⟨fun h => ?_, hactual.hasNumerals⟩
    obtain ⟨given, hgiven, -⟩ := meets_list_iff.1 h
    rw [hlisted] at hgiven
    cases hgiven
  | some given =>
    have hiff : List.Forall₂ Meets items given ↔ (Datum.list items).Meets actual := by
      rw [meets_list_iff, hlisted]
      simp
    by_cases hlength : items.length = given.length
    · simp only [hlength, if_true]
      exact (tells_mismatchItems? hlength 0 (hactual.of_listed hlisted) hitems).congr hiff
    · simp only [hlength, if_false]
      exact ⟨fun h => hlength (hiff.2 h).length_eq, rfl⟩

/-! ### All data -/

/-- The comparison tells whether an expectation is met. -/
theorem Discrete.tells (hexpected : expected.Discrete) (hactual : actual.Discrete) :
    Tells (expected.Meets actual) (mismatch? defaultTolerance expected actual) := by
  induction hexpected generalizing actual with
  | list _ ih => exact tells_of_list hactual fun item hitem _ => ih item hitem
  | map hkeys hdistinct hvalues ih =>
    exact tells_of_map (.map hkeys hdistinct hvalues) hactual fun entry hentry _ => ih entry hentry
  | null => exact tells_of_simple .null rfl hactual
  | bool b => exact tells_of_simple (.bool b) rfl hactual
  | int hnumeral => exact tells_of_simple (.int hnumeral) rfl hactual
  | text s => exact tells_of_simple (.text s) rfl hactual
  | codes points => exact tells_of_simple (.codes points) rfl hactual

end

/-- Data without doubles have no difference from what was expected exactly if they meet it, and a
difference is told by a message that is not empty. -/
theorem mismatch?_eq_none_iff_meets {expected actual : Datum} (hexpected : expected.Discrete)
    (hactual : actual.Discrete) :
    (mismatch? defaultTolerance expected actual = .ok none ↔ expected.Meets actual) ∧
      (¬ expected.Meets actual → ∃ difference text,
        mismatch? defaultTolerance expected actual = .ok (some difference) ∧
          difference.message? = some text ∧ text ≠ "") := by
  have htells := hexpected.tells hactual
  refine ⟨htells.iff_none, fun hnot => ?_⟩
  match houtcome : mismatch? defaultTolerance expected actual with
  | .ok none =>
    rw [houtcome] at htells
    exact absurd htells hnot
  | .ok (some difference) =>
    rw [houtcome] at htells
    exact ⟨difference, difference.message, rfl, if_pos htells.2, difference.message_ne_empty⟩
  | .error fault =>
    rw [houtcome] at htells
    exact htells.elim

/-- A list is expected under a key, and an array is given under it, behind a key that is not asked for. -/
theorem mismatch?_list_of_array :
    mismatch? defaultTolerance (.map [(.text "a", .list [.int 7, .bool true])])
      (.map [(.text "n", .null), (.text "a", .map [(.text "a[0]", .int 7), (.text "a[1]", .bool true)])])
      = .ok none := by
  have hseven : (Datum.int 7).Discrete := .int (by decide +kernel)
  have hexpected : (Datum.map [(.text "a", .list [.int 7, .bool true])]).Discrete := by
    apply Discrete.map
    · simp [IsText]
    · simp
    · simpa using Discrete.list (by simpa using ⟨hseven, .bool true⟩)
  have harray : (Datum.map [(.text "a[0]", .int 7), (.text "a[1]", .bool true)]).Discrete := by
    apply Discrete.map
    · simp [IsText]
    · simp
    · simpa using ⟨hseven, .bool true⟩
  have hactual : (Datum.map [(.text "n", .null),
      (.text "a", .map [(.text "a[0]", .int 7), (.text "a[1]", .bool true)])]).Discrete := by
    apply Discrete.map
    · simp [IsText]
    · simp
    · simpa using ⟨.null, harray⟩
  have hmeets : (Datum.list [.int 7, .bool true]).Meets
      (.map [(.text "a[0]", .int 7), (.text "a[1]", .bool true)]) :=
    .values (.cons (.int 7) (.cons (.bool true) .nil))
  apply (mismatch?_eq_none_iff_meets hexpected hactual).1.2
  exact .map (fun _ => .map [(.text "a[0]", .int 7), (.text "a[1]", .bool true)]) (by simp)
    (by simpa using hmeets)

end Datum

end BinarySchema
