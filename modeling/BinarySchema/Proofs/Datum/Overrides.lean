import BinarySchema.Datum

/-!
# Maps set over maps

The entries of a map with those of another one set over them, one after another, and what is found in them
afterwards. A name has the last value that it was given, and the value that the map had before if it was
given none; so it does not matter whether entries are set at once or in two steps, or are first put into a
map of their own.

Keys that are numbers can be the same without being equal. Those that are text cannot, and lookups are by
text, so everything here is about names.
-/

namespace BinarySchema.Datum

/-- Whether a key is text. -/
def IsText : Datum → Prop
  | .text _ | .codes _ => True
  | _ => False

/-- Whether data are a map whose keys are names. -/
def HasNames (datum : Datum) : Prop :=
  ∃ entries, datum = .map entries ∧ ∀ entry ∈ entries, entry.1.IsText

/-- The entries of a map with others set over them, one after another. -/
def setAll (own given : List (Datum × Datum)) : List (Datum × Datum) :=
  given.foldl (fun all entry => setKey entry.1 entry.2 all) own

variable {key other value : Datum} {name : String} {own given entries : List (Datum × Datum)}

theorem setAll_append (own given more : List (Datum × Datum)) :
    setAll own (given ++ more) = setAll (setAll own given) more :=
  List.foldl_append

/-! ### Keys -/

theorem sameKey_iff_eq (hkey : key.IsText) : sameKey key other = true ↔ key = other := by
  cases key with
  | text s => rw [sameKey_text_iff, eq_comm]
  | codes points => cases other <;> simp [sameKey, keyNumber?, sameContent]
  | _ => cases hkey

theorem eq_of_sameKey (hother : other.IsText) (h : sameKey key other = true) : key = other := by
  cases other with
  | text s => cases key <;> simp_all [sameKey, keyNumber?, sameContent]
  | codes points => cases key <;> simp_all [sameKey, keyNumber?, sameContent]
  | _ => cases hother

theorem keys_setKey (key value : Datum) (entries : List (Datum × Datum)) :
    (setKey key value entries).map Prod.fst
      = if (entries.map Prod.fst).any (sameKey key) then entries.map Prod.fst
        else entries.map Prod.fst ++ [key] := by
  induction entries with
  | nil => rfl
  | cons entry rest ih =>
    unfold setKey
    cases hsame : sameKey key entry.1 with
    | true => simp [hsame]
    | false =>
      rw [if_neg Bool.false_ne_true, List.map_cons, ih, List.map_cons, List.any_cons, hsame,
        Bool.false_or]
      split <;> rfl

/-- What holds of keys together with those they are the same as holds of all keys of a map with others
set over it if it holds of the keys of both. -/
theorem forall_keys_setAll {P : Datum → Prop}
    (hsame : ∀ key other, sameKey key other = true → P other → P key) :
    (∀ key ∈ (setAll own given).map Prod.fst, P key)
      ↔ (∀ key ∈ own.map Prod.fst, P key) ∧ ∀ key ∈ given.map Prod.fst, P key := by
  induction given generalizing own with
  | nil => exact (and_iff_left (List.forall_mem_nil _)).symm
  | cons entry rest ih =>
    have hset : (∀ key ∈ (setKey entry.1 entry.2 own).map Prod.fst, P key)
        ↔ (∀ key ∈ own.map Prod.fst, P key) ∧ P entry.1 := by
      rw [keys_setKey]
      split
      · rename_i hany
        obtain ⟨old, hold, heq⟩ := List.any_eq_true.1 hany
        exact (and_iff_left_of_imp fun hown => hsame _ _ heq (hown old hold)).symm
      · rw [List.forall_mem_append, List.forall_mem_singleton]
    rw [show setAll own (entry :: rest) = setAll (setKey entry.1 entry.2 own) rest from rfl, ih, hset,
      List.map_cons, List.forall_mem_cons, and_assoc]

theorem setKey_of_fresh (h : ∀ other ∈ entries.map Prod.fst, sameKey key other = false) :
    setKey key value entries = entries ++ [(key, value)] := by
  induction entries with
  | nil => rfl
  | cons entry rest ih =>
    obtain ⟨hentry, hrest⟩ := List.forall_mem_cons.1 h
    rw [setKey, if_neg (by rw [hentry]; exact Bool.false_ne_true), ih hrest, List.cons_append]

theorem setAll_of_distinct (hkeys : ∀ key ∈ given.map Prod.fst, key.IsText)
    (hdistinct : ((own ++ given).map Prod.fst).Nodup) : setAll own given = own ++ given := by
  induction given generalizing own with
  | nil => exact (List.append_nil own).symm
  | cons entry rest ih =>
    obtain ⟨hentry, hrest⟩ := List.forall_mem_cons.1 hkeys
    have hfresh (other : Datum) (hother : other ∈ own.map Prod.fst) : sameKey entry.1 other = false := by
      rw [List.map_append, List.map_cons] at hdistinct
      have hne := (List.nodup_append.1 hdistinct).2.2 other hother entry.1 List.mem_cons_self
      exact Bool.eq_false_iff.2 fun hsame => hne ((sameKey_iff_eq hentry).1 hsame).symm
    have hset : setAll own (entry :: rest) = setAll (own ++ [entry]) rest := by
      rw [← setKey_of_fresh hfresh]
      rfl
    rw [List.append_cons] at hdistinct
    rw [hset, ih hrest hdistinct, ← List.append_cons]

theorem isText_of_sameKey (h : sameKey key other = true) (hother : other.IsText) : key.IsText := by
  rw [eq_of_sameKey hother h]
  exact hother

/-! ### Lookups -/

theorem lookup?_cons {entry : Datum × Datum} :
    lookup? (entry :: given) key = if sameKey key entry.1 then some entry.2 else lookup? given key := by
  unfold lookup?
  rw [List.find?_cons]
  cases sameKey key entry.1 <;> rfl

theorem lookup?_setKey (key value : Datum) (entries : List (Datum × Datum)) (name : String) :
    lookup? (setKey key value entries) (.text name)
      = if sameKey (.text name) key then some value else lookup? entries (.text name) := by
  by_cases hkey : sameKey (.text name) key = true
  · obtain rfl := sameKey_text_iff.1 hkey
    rw [if_pos hkey, lookup?_setKey_text]
  · rw [if_neg hkey]
    induction entries with
    | nil => rw [setKey, lookup?_cons, if_neg hkey]
    | cons entry rest ih =>
      unfold setKey
      split
      · rename_i hsame
        have hentry : ¬ sameKey (.text name) entry.1 = true := by
          intro hname
          rw [sameKey_text_iff.1 hname] at hsame
          exact hkey (sameKey_text_iff.2 (eq_of_sameKey trivial hsame))
        rw [lookup?_cons, lookup?_cons, if_neg hentry, if_neg hentry]
      · rw [lookup?_cons, lookup?_cons, ih]

theorem lookup?_setAll (own given : List (Datum × Datum)) (name : String) :
    lookup? (setAll own given) (.text name)
      = (lookup? (setAll [] given) (.text name)).or (lookup? own (.text name)) := by
  induction given generalizing own with
  | nil => rfl
  | cons entry rest ih =>
    show lookup? (setAll (setKey entry.1 entry.2 own) rest) _
      = (lookup? (setAll (setKey entry.1 entry.2 []) rest) _).or _
    rw [ih, ih (setKey _ _ []), lookup?_setKey, lookup?_setKey, Option.or_assoc]
    split <;> rfl

theorem countP_keys_setAll (h : (own.map Prod.fst).countP (sameKey (.text name)) ≤ 1) :
    ((setAll own given).map Prod.fst).countP (sameKey (.text name)) ≤ 1 := by
  induction given generalizing own with
  | nil => exact h
  | cons entry rest ih =>
    have hset : ((setKey entry.1 entry.2 own).map Prod.fst).countP (sameKey (.text name)) ≤ 1 := by
      rw [keys_setKey]
      split
      · exact h
      · rename_i hany
        rw [List.countP_append, List.countP_singleton]
        split
        · rename_i hkey
          rw [sameKey_text_iff.1 hkey] at hany
          have hnone : (own.map Prod.fst).countP (sameKey (.text name)) = 0 :=
            List.countP_eq_zero.2 (by simpa using hany)
          omega
        · exact h
    exact ih hset

theorem lookup?_setAll_nil (h : (entries.map Prod.fst).countP (sameKey (.text name)) ≤ 1) :
    lookup? (setAll [] entries) (.text name) = lookup? entries (.text name) := by
  induction entries with
  | nil => rfl
  | cons entry rest ih =>
    have hsplit : lookup? (setAll [] (entry :: rest)) (.text name)
        = (lookup? (setAll [] rest) (.text name)).or (lookup? [entry] (.text name)) :=
      lookup?_setAll [entry] rest name
    rw [List.map_cons, List.countP_cons] at h
    rw [hsplit, ih (by omega), lookup?_cons, lookup?_cons]
    by_cases hkey : sameKey (.text name) entry.1 = true
    · rw [if_pos hkey] at h
      have hnone : lookup? rest (.text name) = none := by
        have hzero : (rest.map Prod.fst).countP (sameKey (.text name)) = 0 := by omega
        rw [List.countP_eq_zero, List.forall_mem_map] at hzero
        exact Option.map_eq_none_iff.2 (List.find?_eq_none.2 hzero)
      rw [hnone, if_pos hkey, if_pos hkey, Option.none_or]
    · rw [if_neg hkey, if_neg hkey]
      exact Option.or_none

theorem lookup?_setAll_setAll (own given : List (Datum × Datum)) (name : String) :
    lookup? (setAll own (setAll [] given)) (.text name) = lookup? (setAll own given) (.text name) := by
  have honce : ((setAll [] given).map Prod.fst).countP (sameKey (.text name)) ≤ 1 :=
    countP_keys_setAll (Nat.zero_le 1)
  rw [lookup?_setAll, lookup?_setAll_nil honce, ← lookup?_setAll]

end BinarySchema.Datum
