import BinarySchema.Proofs.Datum.JsonReader
import BinarySchema.Proofs.Datum.Overrides
import BinarySchema.Proofs.Datum.Writable

/-!
# JSON text keeps what is written

What a value is written as is read as the value again, in whatever lines and with whatever indentation it
is written, as long as there is no double in it and no map has a key twice. A value is read from its own
text wherever that stands, up to a comma, a bracket or the end of a line; lists and maps are such texts
between brackets, so the statement about them follows from the ones about what is in them.

The plain forms of a decoded tree are such values. Of its verbose form nothing but the values of its
results is left in the other one.
-/

namespace BinarySchema

namespace Datum

/-- Data that JSON text keeps: no doubles, only text as keys and no key twice in a map. -/
inductive Exact : Datum → Prop
  | null : Exact .null
  | bool (b : Bool) : Exact (.bool b)
  | int (n : Int) : Exact (.int n)
  | text (s : String) : Exact (.text s)
  | list {items : List Datum} (inside : ∀ item ∈ items, Exact item) : Exact (.list items)
  | map {entries : List (Datum × Datum)} (names : ∀ entry ∈ entries, ∃ name, entry.1 = .text name)
      (distinct : (entries.map Prod.fst).Nodup) (inside : ∀ entry ∈ entries, Exact entry.2) :
      Exact (.map entries)

namespace Json

def closers : List Char := [']', '\x7d']

/-! ### Blank space -/

def IsBlank (chars : List Char) : Prop := ∀ c ∈ chars, isSpace c = true

theorem skip_append {front : List Char} (h : IsBlank front) (rest : List Char) :
    skip (front ++ rest) = skip rest :=
  List.dropWhile_append_of_pos h

theorem skip_cons {c : Char} (h : isSpace c = false) (rest : List Char) : skip (c :: rest) = c :: rest :=
  List.dropWhile_cons_of_neg (by simp [h])

theorem isBlank_lineBreak (indent : Option Nat) (depth : Nat) :
    IsBlank (lineBreak indent depth).toList := by
  cases indent with
  | none => exact nofun
  | some width =>
    intro c hc
    rw [lineBreak, String.toList_ofList] at hc
    rcases List.mem_cons.1 hc with rfl | hc
    · rfl
    · rw [List.eq_of_mem_replicate hc]
      rfl

/-- What stands behind a comma. -/
def gap (indent : Option Nat) (depth : Nat) : List Char :=
  if indent.isSome then (lineBreak indent depth).toList else [' ']

theorem isBlank_gap (indent : Option Nat) (depth : Nat) : IsBlank (gap indent depth) := by
  unfold gap
  split
  · exact isBlank_lineBreak indent depth
  · intro c hc
    rw [List.mem_singleton.1 hc]
    rfl

theorem endsNumber_cons {c : Char} (h : c ∈ [',', ']', '\x7d', '\n']) (rest : List Char) :
    EndsNumber (c :: rest) := by
  intro d hd
  rwa [← Option.some.inj hd]

theorem endsNumber_lineBreak (indent : Option Nat) (depth : Nat) {bracket : Char}
    (h : bracket ∈ closers) (rest : List Char) :
    EndsNumber ((lineBreak indent depth).toList ++ bracket :: rest) := by
  cases indent with
  | none => exact endsNumber_cons (List.mem_cons_of_mem _ (List.mem_append_left ['\n'] h)) rest
  | some width =>
    rw [lineBreak, String.toList_ofList]
    exact endsNumber_cons (by decide) _

/-! ### Series -/

section

variable {α : Type} {element : List Char → Option (α × List Char)}

/-- That a reader reads a value from its text, whatever blank space is in front of it. -/
structure Reads (element : List Char → Option (α × List Char)) (found : α) (text : List Char) :
    Prop where
  starts : ∃ c rest, text = c :: rest ∧ isSpace c = false ∧ c ∉ closers
  run : ∀ front rest, IsBlank front → EndsNumber rest →
    element (front ++ (text ++ rest)) = some (found, rest)

section

variable {bracket : Char} {steps : Nat} {found : α} {chars after behind : List Char}
  (hfound : element chars = some (found, after))

include hfound

theorem readSeries_last (hskip : skip after = bracket :: behind) (hbracket : bracket ≠ ',') :
    readSeries bracket element (steps + 1) chars = some ([found], behind) := by
  simp [readSeries, hfound, hskip, hbracket]

theorem readSeries_more (hskip : skip after = ',' :: behind) :
    readSeries bracket element (steps + 1) chars
      = (readSeries bracket element steps behind).map (Prod.map (found :: ·) id) := by
  simp [readSeries, hfound, hskip]

end

theorem plain_of_closing {bracket : Char} (h : bracket ∈ closers) :
    isSpace bracket = false ∧ bracket ≠ ',' := by
  simp only [closers, List.mem_cons, List.not_mem_nil, or_false] at h
  rcases h with rfl | rfl <;> exact ⟨rfl, by decide⟩

section

variable {bracket : Char} (hbracket : bracket ∈ closers) {space margin : List Char}
  (hspace : IsBlank space) (hmargin : IsBlank margin) {rest : List Char}
  (hrest : EndsNumber (margin ++ bracket :: rest)) {text : α → List Char} {first : α} {others : List α}
  (h : ∀ item ∈ first :: others, Reads element item (text item)) {front : List Char}
  (hfront : IsBlank front)

include hbracket hspace hmargin hrest h hfront

/-- Elements are read from their texts with commas between them. -/
theorem readSeries_intercalate {steps : Nat}
    (hsteps : (front ++ ((',' :: space).intercalate ((first :: others).map text) ++
      (margin ++ bracket :: rest))).length ≤ steps) :
    readSeries bracket element steps (front ++
        ((',' :: space).intercalate ((first :: others).map text) ++ (margin ++ bracket :: rest)))
      = some (first :: others, rest) := by
  obtain ⟨hvisible, hcomma⟩ := plain_of_closing hbracket
  induction others generalizing first front steps with
  | nil =>
    obtain ⟨steps, rfl⟩ : ∃ k, steps = k + 1 := by
      simp only [List.length_append, List.length_cons] at hsteps
      exact ⟨steps - 1, by omega⟩
    have hfirst := (h first List.mem_cons_self).run front _ hfront hrest
    rw [List.map_singleton, List.intercalate_singleton]
    exact readSeries_last hfirst ((skip_append hmargin _).trans (skip_cons hvisible rest)) hcomma
  | cons second others ih =>
    obtain ⟨hitem, hothers⟩ := List.forall_mem_cons.1 h
    rw [List.map_cons, List.map_cons, List.intercalate_cons_cons, ← List.map_cons, List.append_assoc,
      List.append_assoc, List.cons_append] at hsteps ⊢
    obtain ⟨steps, rfl⟩ : ∃ k, steps = k + 1 := by
      simp only [List.length_append, List.length_cons] at hsteps
      exact ⟨steps - 1, by omega⟩
    have hfirst := hitem.run front (',' :: (space ++ ((',' :: space).intercalate
      ((second :: others).map text) ++ (margin ++ bracket :: rest)))) hfront
      (endsNumber_cons List.mem_cons_self _)
    rw [readSeries_more hfirst (skip_cons rfl _), ih hothers hspace]
    · rfl
    · simp only [List.length_append, List.length_cons] at hsteps ⊢
      omega

theorem readBracketed_intercalate : readBracketed bracket element (front ++
    ((',' :: space).intercalate ((first :: others).map text) ++ (margin ++ bracket :: rest)))
      = some (first :: others, rest) := by
  obtain ⟨c, behind, hfirst, hvisible, hopen⟩ := (h first List.mem_cons_self).starts
  have hne : c ≠ bracket := fun heq => hopen (heq ▸ hbracket)
  have hskip : ∃ more, skip (front ++
      ((',' :: space).intercalate ((first :: others).map text) ++ (margin ++ bracket :: rest)))
        = c :: more := by
    rw [skip_append hfront, List.map_cons, hfirst, List.intercalate_cons_cons_left]
    exact ⟨_, skip_cons hvisible _⟩
  obtain ⟨more, hskip⟩ := hskip
  rw [readBracketed, hskip]
  refine (if_neg hne).trans ?_
  exact readSeries_intercalate hbracket hspace hmargin hrest h hfront (Nat.le_refl _)

end

theorem toList_enclose_cons (opening closing first : String) (others : List String)
    (indent : Option Nat) (depth : Nat) :
    (enclose opening closing indent depth (first :: others)).toList
      = opening.toList ++ ((lineBreak indent (depth + 1)).toList ++
        ((',' :: gap indent (depth + 1)).intercalate ((first :: others).map String.toList) ++
          ((lineBreak indent depth).toList ++ closing.toList))) := by
  have hseparator : (if indent.isSome then "," ++ lineBreak indent (depth + 1) else ", ").toList
      = ',' :: gap indent (depth + 1) := by
    unfold gap
    split
    · rw [String.toList_append]
      rfl
    · rfl
  simp only [enclose, List.isEmpty_cons, Bool.false_eq_true, if_false, String.toList_append,
    String.toList_intercalate, hseparator, List.append_assoc]

theorem toList_enclose (opening closing : String) (indent : Option Nat) (depth : Nat)
    (items : List String) : (enclose opening closing indent depth items).toList
      = opening.toList ++ (enclose "" closing indent depth items).toList := by
  unfold enclose
  split <;> simp [String.toList_append]

theorem readBracketed_enclose (indent : Option Nat) (depth : Nat) {bracket : Char}
    (hbracket : bracket ∈ closers) {items : List α} {text : α → String}
    (h : ∀ item ∈ items, Reads element item (text item).toList) (rest : List Char) :
    readBracketed bracket element
        ((enclose "" (String.singleton bracket) indent depth (items.map text)).toList ++ rest)
      = some (items, rest) := by
  cases items with
  | nil =>
    have hskip : skip (bracket :: rest) = bracket :: rest := skip_cons (plain_of_closing hbracket).1 rest
    have hread : readBracketed bracket element (bracket :: rest) = some ([], rest) := by
      rw [readBracketed, hskip]
      exact if_pos rfl
    simpa [enclose] using hread
  | cons first others =>
    have hread := readBracketed_intercalate hbracket (isBlank_gap indent (depth + 1))
      (isBlank_lineBreak indent depth) (endsNumber_lineBreak indent depth hbracket rest) h
      (isBlank_lineBreak indent (depth + 1))
    rw [List.map_cons, toList_enclose_cons]
    simpa [Function.comp_def] using hread

theorem length_le_intercalate (separator : List Char) {part : List Char} {parts : List (List Char)}
    (h : part ∈ parts) : part.length ≤ (separator.intercalate parts).length := by
  induction parts with
  | nil => cases h
  | cons first others ih =>
    cases others with
    | nil =>
      rw [List.mem_singleton.1 h, List.intercalate_singleton]
    | cons second others =>
      rw [List.intercalate_cons_cons, List.length_append, List.length_append]
      rcases List.mem_cons.1 h with rfl | h
      · omega
      · have hothers := ih h
        omega

theorem length_le_enclose {opening closing : String} {indent : Option Nat} {depth : Nat}
    {items : List String} {item : String} (h : item ∈ items) :
    item.toList.length ≤ (enclose opening closing indent depth items).toList.length := by
  cases items with
  | nil => cases h
  | cons first others =>
    have hpart := length_le_intercalate (',' :: gap indent (depth + 1))
      (List.mem_map_of_mem (f := String.toList) h)
    rw [toList_enclose_cons]
    simp only [List.length_append]
    omega

end

/-! ### Values -/

theorem Reads.of_readFrom {value : Datum} {c : Char} {chars : List Char} {depth : Nat}
    (hdepth : (c :: chars).length ≤ depth) (hc : isSpace c = false ∧ c ∉ closers)
    (h : ∀ inner rest, chars.length ≤ inner → EndsNumber rest →
      readFrom (readValue inner) c (chars ++ rest) = some (value, rest)) :
    Reads (readValue depth) value (c :: chars) where
  starts := ⟨c, chars, rfl, hc⟩
  run front rest hfront hrest := by
    obtain ⟨inner, rfl⟩ : ∃ inner, depth = inner + 1 :=
      ⟨depth - 1, by simp only [List.length_cons] at hdepth; omega⟩
    rw [readValue, skip_append hfront, List.cons_append, skip_cons hc.1]
    exact h inner rest (Nat.le_of_succ_le_succ hdepth) hrest

section

variable {depth : Nat}

theorem reads_null (h : "null".toList.length ≤ depth) : Reads (readValue depth) .null "null".toList := by
  have hword : "null".toList = ['n', 'u', 'l', 'l'] := rfl
  rw [hword] at h ⊢
  exact .of_readFrom h ⟨rfl, by decide⟩ fun _ _ _ _ => rfl

theorem reads_bool (b : Bool) (h : (if b then "true" else "false").toList.length ≤ depth) :
    Reads (readValue depth) (.bool b) (if b then "true" else "false").toList := by
  have hwords : "false".toList = ['f', 'a', 'l', 's', 'e'] ∧ "true".toList = ['t', 'r', 'u', 'e'] :=
    ⟨rfl, rfl⟩
  cases b with
  | false =>
    rw [if_neg Bool.false_ne_true, hwords.1] at h ⊢
    exact .of_readFrom h ⟨rfl, by decide⟩ fun _ _ _ _ => rfl
  | true =>
    rw [if_pos rfl, hwords.2] at h ⊢
    exact .of_readFrom h ⟨rfl, by decide⟩ fun _ _ _ _ => rfl

theorem toList_string (content : String) :
    (string content).toList = '"' :: (content.toList.flatMap escapeChar ++ ['"']) := by
  rw [string, String.toList_ofList, List.cons_append]

theorem reads_string (content : String) (h : (string content).toList.length ≤ depth) :
    Reads (readValue depth) (.text content) (string content).toList := by
  rw [toList_string] at h ⊢
  refine .of_readFrom h ⟨rfl, by decide⟩ fun inner rest _ _ => ?_
  rw [readFrom, if_pos rfl, List.append_assoc]
  exact readString_escaped content rest

theorem reads_decimal (n : Int) (hdepth : (Number.decimal n).toList.length ≤ depth) :
    Reads (readValue depth) (.int n) (Number.decimal n).toList := by
  have hstart : ∃ c chars, (Number.decimal n).toList = c :: chars ∧ (c = '-' ∨ c.isDigit = true) := by
    cases n with
    | ofNat n =>
      obtain ⟨c, chars, hchars, hc⟩ := toDigits_eq_cons n
      exact ⟨c, chars, Nat.toList_repr.trans hchars, .inr hc⟩
    | negSucc n => exact ⟨'-', _, String.toList_append, .inl rfl⟩
  obtain ⟨c, chars, hchars, hc⟩ := hstart
  have hother (d : Char) (hd : ¬ (d = '-' ∨ d.isDigit = true)) : c ≠ d := fun heq => hd (heq ▸ hc)
  have hread (rest : List Char) (hrest : EndsNumber rest) := readNumber_decimal n hrest
  rw [hchars] at hdepth hread ⊢
  refine .of_readFrom hdepth ⟨?_, ?_⟩ fun inner rest _ hrest => ?_
  · simp [isSpace, hother ' ' (by decide), hother '\t' (by decide), hother '\n' (by decide),
      hother '\r' (by decide)]
  · simp [closers, hother ']' (by decide), hother '\x7d' (by decide)]
  · rw [readFrom, if_neg (hother '"' (by decide)), if_neg (hother '[' (by decide)),
      if_neg (hother '\x7b' (by decide)), if_pos hc]
    exact hread rest hrest

theorem reads_enclose {α : Type} (make : List α → Datum) (opening bracket : Char)
    (hopening : isSpace opening = false ∧ opening ∉ closers)
    (hbracket : bracket ∈ closers)
    {element : (List Char → Option (Datum × List Char)) → List Char → Option (α × List Char)}
    (hfrom : ∀ inner chars, readFrom inner opening chars
      = (readBracketed bracket (element inner) chars).map (Prod.map make id))
    {indent : Option Nat} {level : Nat} {items : List α} {text : α → String}
    (h : ∀ item ∈ items, ∀ inner, (text item).toList.length ≤ inner →
      Reads (element (readValue inner)) item (text item).toList)
    (hdepth : (enclose (String.singleton opening) (String.singleton bracket) indent level
      (items.map text)).toList.length ≤ depth) :
    Reads (readValue depth) (make items)
      (enclose (String.singleton opening) (String.singleton bracket) indent level
        (items.map text)).toList := by
  rw [toList_enclose, String.toList_singleton, List.singleton_append] at hdepth ⊢
  refine .of_readFrom hdepth hopening fun inner rest hinner _ => ?_
  have hitems (item : α) (hitem : item ∈ items) :
      Reads (element (readValue inner)) item (text item).toList :=
    h item hitem inner (Nat.le_trans (length_le_enclose (List.mem_map_of_mem hitem)) hinner)
  rw [hfrom, readBracketed_enclose indent level hbracket hitems rest]
  rfl

end

theorem readEntry_eq {inner : List Char → Option (Datum × List Char)}
    {chars rest behind after final : List Char} {key value : Datum}
    (hquote : skip chars = '"' :: rest) (hkey : readString rest = some (key, behind))
    (hcolon : skip behind = ':' :: after) (hvalue : inner after = some (value, final)) :
    readEntry inner chars = some ((key, value), final) := by
  simp [readEntry, hquote, hkey, hcolon, hvalue]

/-- An entry is read from its key and the text of its value. -/
theorem Reads.entry {inner : List Char → Option (Datum × List Char)} {value : Datum} {text : String}
    (h : Reads inner value text.toList) (name : String) :
    Reads (readEntry inner) (.text name, value) (string name ++ ": " ++ text).toList := by
  have htext : (string name ++ ": " ++ text).toList
      = '"' :: (name.toList.flatMap escapeChar ++ '"' :: ':' :: ' ' :: text.toList) := by
    rw [String.toList_append, String.toList_append, toList_string]
    simp
  have hblank : IsBlank [' '] := by
    intro c hc
    rw [List.mem_singleton.1 hc]
    rfl
  rw [htext]
  refine ⟨⟨_, _, rfl, rfl, by decide⟩, fun front rest hfront hrest => ?_⟩
  have hquote := (skip_append hfront _).trans (skip_cons (c := '"') rfl
    (name.toList.flatMap escapeChar ++ '"' :: ':' :: ' ' :: (text.toList ++ rest)))
  have hchars : ('"' :: (name.toList.flatMap escapeChar ++ '"' :: ':' :: ' ' :: text.toList)) ++ rest
      = '"' :: (name.toList.flatMap escapeChar ++ '"' :: ':' :: ' ' :: (text.toList ++ rest)) := by
    simp
  rw [hchars]
  exact readEntry_eq hquote (readString_escaped name _) (skip_cons rfl _) (h.run [' '] rest hblank hrest)

theorem writeItems_eq_map (indent : Option Nat) (depth : Nat) (items : List Datum) :
    writeItems indent depth items = items.map (write indent depth) := by
  induction items with
  | nil => rfl
  | cons item rest ih => rw [writeItems, ih, List.map_cons]

theorem writeEntries_eq_map (indent : Option Nat) (depth : Nat) (entries : List (Datum × Datum)) :
    writeEntries indent depth entries
      = entries.map fun entry => key entry.1 ++ ": " ++ write indent depth entry.2 := by
  induction entries with
  | nil => rfl
  | cons entry rest ih => rw [writeEntries, ih, List.map_cons]

/-- A value is read from the text that it is written as. -/
theorem reads_write {value : Datum} (h : value.Exact) (indent : Option Nat) {level depth : Nat}
    (hdepth : (write indent level value).toList.length ≤ depth) :
    Reads (readValue depth) value (write indent level value).toList := by
  induction h generalizing level depth with
  | null => exact reads_null hdepth
  | bool b => exact reads_bool b hdepth
  | int n => exact reads_decimal n hdepth
  | text content => exact reads_string content hdepth
  | list _ ih =>
    rw [write, writeItems_eq_map] at hdepth ⊢
    exact reads_enclose .list '[' ']' ⟨rfl, by decide⟩ (by decide) (fun _ _ => rfl)
      (fun item hitem _ hinner => ih item hitem hinner) hdepth
  | @map entries names distinct _ ih =>
    have hentries : ofEntries entries = .map entries := by
      have hkeys : ∀ key ∈ entries.map Prod.fst, key.IsText := by
        refine List.forall_mem_map.2 fun entry hentry => ?_
        obtain ⟨name, hname⟩ := names entry hentry
        rw [hname]
        trivial
      have hall : setAll [] entries = entries := setAll_of_distinct hkeys distinct
      exact congrArg Datum.map hall
    rw [write, writeEntries_eq_map] at hdepth ⊢
    have hread := reads_enclose ofEntries '\x7b' '\x7d' ⟨rfl, by decide⟩ (by decide) (fun _ _ => rfl)
      (fun entry hentry inner hinner => ?_) hdepth
    · rw [hentries] at hread
      exact hread
    · obtain ⟨name, hname⟩ := names entry hentry
      simp only [String.toList_append, List.length_append] at hinner
      have hvalue : Reads (readValue inner) entry.2 (write indent (level + 1) entry.2).toList :=
        ih entry hentry (by omega)
      have hpair := hvalue.entry name
      rw [← hname] at hpair
      rw [hname]
      exact hpair

theorem read_write {value : Datum} (h : value.Exact) (indent : Option Nat) :
    read (write indent 0 value) = some value := by
  have hwritten : Reads (readValue (write indent 0 value).toList.length) value
      (write indent 0 value).toList := reads_write h indent (Nat.le_refl _)
  have hread := hwritten.run [] [] nofun nofun
  rw [List.nil_append, List.append_nil, String.length_toList] at hread
  rw [read, hread]
  rfl

-- The reader also knows the forms of JSON that nothing is written in, and refuses what is none.
example : read " [ \"\\u0041\\/\", -20 ,\x7b\"k\":1 , \"k\" : null\x7d]\n"
    = some (.list [.text "A/", .int (-20), .map [(.text "k", .null)]]) := by cbv

example : read "[1, ]" = none ∧ read "01" = none ∧ read "\"\n\"" = none ∧ read "1 2" = none := by cbv

/-! ### Characters -/

def IsAscii (text : String) : Prop := ∀ c ∈ text.toList, c.toNat < 128

theorem isAscii_append {front back : String} :
    IsAscii (front ++ back) ↔ IsAscii front ∧ IsAscii back := by
  simp [IsAscii, or_imp, forall_and]

theorem isAscii_intercalate {separator : String} (hseparator : IsAscii separator) {items : List String}
    (h : ∀ item ∈ items, IsAscii item) : IsAscii (separator.intercalate items) := by
  induction items with
  | nil => exact nofun
  | cons first others ih =>
    obtain ⟨hfirst, hothers⟩ := List.forall_mem_cons.1 h
    cases others with
    | nil => rwa [String.intercalate_singleton]
    | cons second others =>
      rw [String.intercalate_cons_cons, isAscii_append, isAscii_append]
      exact ⟨⟨hfirst, hseparator⟩, ih hothers⟩

theorem isAscii_lineBreak (indent : Option Nat) (depth : Nat) : IsAscii (lineBreak indent depth) := by
  intro c hc
  have hspace := isBlank_lineBreak indent depth c hc
  simp only [isSpace, Bool.or_eq_true, decide_eq_true_eq] at hspace
  rcases hspace with ((rfl | rfl) | rfl) | rfl <;> decide

theorem isAscii_enclose {opening closing : String} (hopening : IsAscii opening)
    (hclosing : IsAscii closing) (indent : Option Nat) (depth : Nat) {items : List String}
    (h : ∀ item ∈ items, IsAscii item) : IsAscii (enclose opening closing indent depth items) := by
  have hseparator : IsAscii (if indent.isSome then "," ++ lineBreak indent (depth + 1) else ", ") := by
    split
    · exact isAscii_append.2 ⟨by simp [IsAscii], isAscii_lineBreak _ _⟩
    · simp [IsAscii]
  unfold enclose
  split
  · exact isAscii_append.2 ⟨hopening, hclosing⟩
  · simp only [isAscii_append]
    exact ⟨⟨⟨⟨hopening, isAscii_lineBreak _ _⟩, isAscii_intercalate hseparator h⟩,
      isAscii_lineBreak _ _⟩, hclosing⟩

theorem toNat_lt_of_mem_unicodeEscape {unit : Nat} {c : Char} (h : c ∈ unicodeEscape unit) :
    c.toNat < 128 := by
  simp only [unicodeEscape, List.mem_cons] at h
  rcases h with rfl | rfl | hdigit
  · decide
  · decide
  · exact Number.toNat_lt_of_isHexDigit (Number.isHexDigit_of_mem hdigit)

theorem toNat_lt_of_mem_escapeChar {c d : Char} (h : d ∈ escapeChar c) : d.toNat < 128 := by
  unfold escapeChar at h
  split at h
  iterate 7
    simp only [List.mem_cons, List.not_mem_nil, or_false] at h
    rcases h with rfl | rfl <;> decide
  split at h
  · rename_i hprintable
    rw [List.mem_singleton.1 h]
    exact Nat.lt_of_le_of_lt hprintable.2 (by decide)
  · split at h
    · exact toNat_lt_of_mem_unicodeEscape h
    · rcases List.mem_append.1 h with h | h <;> exact toNat_lt_of_mem_unicodeEscape h

theorem isAscii_string (content : String) : IsAscii (string content) := by
  intro c hc
  rw [toList_string] at hc
  simp only [List.mem_cons, List.mem_append, List.not_mem_nil, or_false] at hc
  rcases hc with rfl | hinside | rfl
  · decide
  · obtain ⟨d, -, hd⟩ := List.mem_flatMap.1 hinside
    exact toNat_lt_of_mem_escapeChar hd
  · decide

theorem isAscii_decimal (n : Int) : IsAscii (Number.decimal n) := by
  have hrepr (n : Nat) : IsAscii (Nat.repr n) := by
    intro c hc
    rw [Nat.toList_repr] at hc
    have hdigit := Nat.isDigit_of_mem_toDigits (by decide) (by decide) hc
    obtain ⟨d, hd, -⟩ := Number.hexValue?_of_isDigit hdigit
    exact Number.toNat_lt_of_isHexDigit (by rw [Text.isHexDigit, hd]; rfl)
  cases n with
  | ofNat n => exact hrepr n
  | negSucc n => exact isAscii_append.2 ⟨by simp [IsAscii], hrepr (n + 1)⟩

theorem isAscii_write {value : Datum} (h : value.Exact) (indent : Option Nat) (level : Nat) :
    IsAscii (write indent level value) := by
  induction h generalizing level with
  | null => simp [write, IsAscii]
  | bool b => cases b <;> simp [write, IsAscii]
  | int n => exact isAscii_decimal n
  | text content => exact isAscii_string content
  | list _ ih =>
    rw [write, writeItems_eq_map]
    refine isAscii_enclose (by simp [IsAscii]) (by simp [IsAscii]) indent level ?_
    exact List.forall_mem_map.2 fun item hitem => ih item hitem (level + 1)
  | map names _ _ ih =>
    rw [write, writeEntries_eq_map]
    refine isAscii_enclose (by simp [IsAscii]) (by simp [IsAscii]) indent level ?_
    refine List.forall_mem_map.2 fun entry hentry => ?_
    obtain ⟨name, hname⟩ := names entry hentry
    rw [hname, isAscii_append, isAscii_append]
    exact ⟨⟨isAscii_string name, by simp [IsAscii]⟩, ih entry hentry (level + 1)⟩

end Json

/-! ### Plain forms -/

mutual

/-- The data with each entry replaced by the value that it has under the name value. -/
def bare : Datum → Datum
  | .map entries => .map (bareEntries entries)
  | datum => datum
termination_by structural datum => datum

def bareEntries : List (Datum × Datum) → List (Datum × Datum)
  | [] => []
  | (key, entry) :: rest => (key, bareEntry entry) :: bareEntries rest
termination_by structural entries => entries

def bareEntry : Datum → Datum
  | .map details => bareValue details
  | datum => datum
termination_by structural datum => datum

def bareValue : List (Datum × Datum) → Datum
  | [] => .null
  | (key, value) :: rest => if sameKey (.text "value") key then bare value else bareValue rest
termination_by structural details => details

end

theorem bareEntry_detail {α : Type} (field : Entry α) (value : Datum) :
    bareEntry (field.detail value) = value.bare := by
  have hother : sameKey (.text "value") (.text "type") = false ∧
      sameKey (.text "value") (.text "offset") = false ∧
      sameKey (.text "value") (.text "size") = false := by
    decide
  have hvalue : sameKey (.text "value") (.text "value") = true := sameKey_text_iff.2 rfl
  unfold Entry.detail
  cases visibleComment field.comment <;>
    simp [bareEntry, bareValue, hother, hvalue]

theorem bareEntries_plain {fields : Scope}
    (h : ∀ field ∈ fields, (field.value.plain true).bare = field.value.plain false) :
    bareEntries (plainEntries true fields) = plainEntries false fields := by
  induction fields with
  | nil => rfl
  | cons field rest ih =>
    obtain ⟨hfield, hrest⟩ := List.forall_mem_cons.1 h
    rw [plainEntries_cons, plainEntries_cons, if_pos rfl, if_neg Bool.false_ne_true, bareEntries,
      bareEntry_detail, hfield, ih hrest]

theorem bare_plain {value : Datum} (h : value.Produced) : (value.plain true).bare = value.plain false := by
  induction h with
  | @simple value hsimple => cases value <;> first | rfl | cases hsimple
  | scope _ _ ih => exact congrArg Datum.map (bareEntries_plain ih)

theorem Exact.detail {α : Type} {value : Datum} (h : value.Exact) (field : Entry α) :
    (field.detail value).Exact := by
  unfold Entry.detail
  cases visibleComment field.comment with
  | none =>
    refine .map (by simp) (by simp) ?_
    simp only [List.forall_mem_cons]
    exact ⟨.text _, .int _, .int _, h, nofun⟩
  | some comment =>
    refine .map (by simp) (by simp) ?_
    simp only [List.forall_mem_append, List.forall_mem_cons]
    exact ⟨⟨.text _, .int _, .int _, h, nofun⟩, .text comment, nofun⟩

/-- The plain forms of a decoded value are data that JSON text keeps, if there are no doubles in it. -/
theorem exact_plain {value : Datum} (h : value.Produced) (hvalue : ∀ x, value ≠ .double x)
    (hinner : ∀ field ∈ value.inner, ∀ x, field.value ≠ .double x) (verbose : Bool) :
    (value.plain verbose).Exact := by
  induction h with
  | @simple value hsimple =>
    cases value with
    | null => exact .null
    | bool b => exact .bool b
    | int n => exact .int n
    | text content => exact .text content
    | address n => exact .text _
    | time t => exact .text _
    | double x => exact absurd rfl (hvalue x)
    | _ => cases hsimple
  | @scope fields distinct _ ih =>
    have hfields := Scope.forall_everywhere_iff.1 hinner
    have hplain (field : Result) (hfield : field ∈ fields) : (field.value.plain verbose).Exact :=
      ih field hfield (hfields field hfield).1 (hfields field hfield).2
    change (Datum.map (plainEntries verbose fields)).Exact
    rw [plainEntries_eq_map]
    refine .map (List.forall_mem_map.2 fun field _ => ⟨field.name, rfl⟩) ?_ ?_
    · have hkeys := distinct.map fun (name other : String) => (Datum.text.inj : Datum.text name = _ → _)
      rw [Scope.names, List.map_map] at hkeys
      rwa [List.map_map]
    · refine List.forall_mem_map.2 fun field hfield => ?_
      cases verbose with
      | false => exact hplain field hfield
      | true => exact (hplain field hfield).detail field

end Datum

/-- The values of the results inside a decoded value can be decoded as well. -/
theorem Datum.Produced.inner {value : Datum} (h : value.Produced) :
    ∀ field ∈ value.inner, field.value.Produced := by
  induction h with
  | @simple value hsimple =>
    have hnone : value.inner = [] := by cases value <;> first | rfl | cases hsimple
    rw [hnone]
    exact List.forall_mem_nil _
  | scope _ inside ih =>
    exact Scope.forall_everywhere_iff.2 fun field hfield => ⟨inside field hfield, ih field hfield⟩

/-- That the value of a result is no double, and that its integers have at most 64 bits. -/
structure Entry.WordSized (field : Result) : Prop where
  whole : ∀ x, field.value ≠ .double x
  value : ∀ n, field.value = .int n → n.natAbs < 2 ^ 64
  offset : field.offset.natAbs < 2 ^ 64
  size : field.size.natAbs < 2 ^ 64

theorem Entry.WordSized.writable {field : Result} (h : field.WordSized)
    (hproduced : field.value.Produced) : field.Writable := by
  have hpower (digits : Nat) (hdigits : 20 ≤ digits) : 2 ^ 64 ≤ Nat.pow 10 digits :=
    Nat.le_trans (by decide : 2 ^ 64 ≤ Nat.pow 10 20) (Nat.pow_le_pow_right (by decide) hdigits)
  have hnumeral (n : Int) (hn : n.natAbs < 2 ^ 64) : Number.hasNumeral n = true :=
    decide_eq_true (Nat.lt_of_lt_of_le hn (hpower Number.digitLimit (by decide)))
  refine ⟨?_, hnumeral _ h.offset, hnumeral _ h.size⟩
  have hvalue := h.value
  generalize field.value = value at hproduced hvalue
  cases hproduced with
  | simple hsimple =>
    cases value with
    | int n => exact hnumeral n (hvalue n rfl)
    | _ => first | rfl | cases hsimple
  | scope _ _ => rfl

/-- The JSON text of a decoded tree without doubles is ASCII, and its plain form is read from it: verbose
or not, on lines of their own or on one. Of the verbose form, the other one is what is left when each
entry is replaced by its value. -/
theorem json_keeps_plain {fields : Scope} (hproduced : (Datum.scope fields).Produced)
    (hsized : ∀ field ∈ fields.everywhere, field.WordSized) :
    (∀ (verbose : Bool) (indent : Option Nat), ∃ text,
      (fields.plain verbose).json indent = .ok text ∧ Datum.Json.IsAscii text ∧
        Datum.Json.read text = some (fields.plain verbose)) ∧
    (fields.plain true).bare = fields.plain false := by
  have hwritable : ∀ field ∈ fields.everywhere, field.Writable := fun field hfield =>
    (hsized field hfield).writable (hproduced.inner field hfield)
  constructor
  · intro verbose indent
    have hexact : (fields.plain verbose).Exact :=
      Datum.exact_plain hproduced nofun (fun field hfield => (hsized field hfield).whole) verbose
    exact ⟨_, Scope.json_plain hproduced hwritable verbose indent,
      Datum.Json.isAscii_write hexact indent 0, Datum.Json.read_write hexact indent⟩
  · exact Datum.bare_plain hproduced

/-- A text with a quote and characters beyond ASCII around it, a struct and an empty array. -/
def Scope.accented : Scope := [
  { kind := .array, name := "t\"é", offset := 0, size := 5, typeName := "char[]", value := .text "😀\n"
    comment := some "ü" },
  { kind := .struct, name := "p", offset := 5, size := 1, typeName := "P", value := .scope [
    { kind := .primitive, name := "n", offset := 5, size := 1, typeName := "signed byte"
      value := .int (-1) }] },
  { kind := .array, name := "e", offset := 6, size := 0, typeName := "P[]", value := .scope [] }]

theorem json_keeps_plain_accented :
    (Datum.scope Scope.accented).Produced ∧ (∀ field ∈ Scope.accented.everywhere, field.WordSized) ∧
    (Scope.accented.plain false).json none = .ok
      "\x7b\"t\\\"\\u00e9\": \"\\ud83d\\ude00\\n\", \"p\": \x7b\"n\": -1\x7d, \"e\": \x7b\x7d\x7d" ∧
    (∃ text, (Scope.accented.plain true).json (some 2) = .ok text ∧ Datum.Json.IsAscii text ∧
      Datum.Json.read text = some (Scope.accented.plain true)) ∧
    (Scope.accented.plain true).bare = Scope.accented.plain false := by
  have hproduced : (Datum.scope Scope.accented).Produced := by
    refine .scope (by decide) ?_
    simp only [Scope.accented, List.forall_mem_cons]
    refine ⟨.simple rfl, .scope (by decide) ?_, .scope (by decide) (List.forall_mem_nil _),
      List.forall_mem_nil _⟩
    simp only [List.forall_mem_cons]
    exact ⟨.simple rfl, List.forall_mem_nil _⟩
  have hsized : ∀ field ∈ Scope.accented.everywhere, field.WordSized := by
    simp only [Scope.forall_everywhere_iff, Scope.accented, List.forall_mem_cons]
    refine ⟨⟨⟨nofun, nofun, by decide, by decide⟩, List.forall_mem_nil _⟩,
      ⟨⟨nofun, nofun, by decide, by decide⟩, ?_⟩,
      ⟨⟨nofun, nofun, by decide, by decide⟩, List.forall_mem_nil _⟩, List.forall_mem_nil _⟩
    intro field hfield
    obtain rfl := List.mem_singleton.1 hfield
    refine ⟨nofun, ?_, by decide, by decide⟩
    rintro n hn
    obtain rfl := Datum.int.inj hn
    decide
  have hwritten : Datum.Json.write none 0 (Scope.accented.plain false)
      = "\x7b\"t\\\"\\u00e9\": \"\\ud83d\\ude00\\n\", \"p\": \x7b\"n\": -1\x7d, \"e\": \x7b\x7d\x7d" := by
    cbv
  have hjson := Scope.json_plain hproduced
    (fun field hfield => (hsized field hfield).writable (hproduced.inner field hfield)) false none
  obtain ⟨hkeeps, hbare⟩ := json_keeps_plain hproduced hsized
  exact ⟨hproduced, hsized, hjson.trans (congrArg Except.ok hwritten), hkeeps true (some 2), hbare⟩

end BinarySchema
