import BinarySchema.Options
import BinarySchema.Proofs.Datum.Overrides
import BinarySchema.Proofs.Except

/-!
# Options that are merged

Options that were read are read again from their written form, and overrides may be set one after another
or all at once. Reading looks at a map in two ways only: its keys must be names of options, and each option
is read from what stands under its name. `ofEntries_ok_iff` says so, and the rest follows from what maps set
over maps have under a name. An override hides what stood there before, valid or not; where there is none,
the written form of an option is read as what it was written from.

Data that have the form of options are refused for what stands in them, and never for their form.
-/

namespace BinarySchema.Options

variable {codecs : Text.Codecs} {e : OptionsError} {options once : Options}
  {entries own other given : List (Datum × Datum)}

/-! ### Names -/

def IsName : Datum → Prop
  | .text name => name ∈ names
  | _ => False

theorem IsName.isText {key : Datum} (h : IsName key) : key.IsText := by
  cases key with
  | text name => trivial
  | _ => cases h

theorem isName_of_sameKey (key same : Datum) (h : key.sameKey same = true) (hsame : IsName same) :
    IsName key := by
  rw [Datum.eq_of_sameKey hsame.isText h]
  exact hsame

theorem isName_of_mem_entries {key : Datum} (h : key ∈ options.entries.map Prod.fst) : IsName key := by
  simp only [Options.entries, List.map_cons, List.map_nil, List.mem_cons, List.not_mem_nil,
    or_false] at h
  rcases h with rfl | rfl | rfl | rfl <;> simp [IsName, names]

theorem isName_iff {key : Datum} :
    (match key with | .text name => !names.contains name | _ => true) = false ↔ IsName key := by
  cases key <;> simp [IsName]

theorem eraseDups_eq_nil {names : List String} (h : names.eraseDups = []) : names = [] := by
  cases names with
  | nil => rfl
  | cons name rest =>
    rw [List.eraseDups_cons] at h
    cases h

theorem eq_nil_of_mapM {α β : Type} {f : α → Option β} {items : List α} (h : items.mapM f = some []) :
    items = [] := by
  cases items with
  | nil => rfl
  | cons item rest =>
    rw [List.mapM_cons] at h
    obtain ⟨result, -, h⟩ := Option.bind_eq_some_iff.1 h
    obtain ⟨results, -, h⟩ := Option.bind_eq_some_iff.1 h
    cases h

theorem unknownNames?_eq_nil_iff {keys : List Datum} :
    unknownNames? keys = some [] ↔ ∀ key ∈ keys, IsName key := by
  have hfilter : keys.filter (fun key =>
      match key with
      | .text name => !names.contains name
      | _ => true) = [] ↔ ∀ key ∈ keys, IsName key := by
    rw [List.filter_eq_nil_iff]
    exact forall₂_congr fun key _ => (Bool.not_eq_true _).to_iff.trans isName_iff
  rw [← hfilter]
  unfold unknownNames?
  dsimp only
  constructor
  · intro h
    obtain ⟨texts, htexts, hnone⟩ := Option.map_eq_some_iff.1 h
    have hsorted := List.length_eq_zero_iff.2 (eraseDups_eq_nil hnone)
    rw [List.length_mergeSort] at hsorted
    rw [List.length_eq_zero_iff.1 hsorted] at htexts
    exact eq_nil_of_mapM htexts
  · intro h
    exact Option.map_eq_some_iff.2 ⟨[], congrArg (List.mapM _) h, by simp⟩

/-! ### Reading -/

/-- That options are what is read under their names. -/
structure Reads (codecs : Text.Codecs) (entries : List (Datum × Datum)) (options : Options) : Prop where
  endian : readEndian (Datum.lookup? entries (.text "endian")) = .ok options.endian
  strictEnums : readStrictEnums (Datum.lookup? entries (.text "strict_enums")) = .ok options.strictEnums
  maxLoopIterations : readLoopLimit (Datum.lookup? entries (.text "max_loop_iterations"))
    = .ok options.maxLoopIterations
  textEncoding : readTextEncoding codecs (Datum.lookup? entries (.text "text_encoding"))
    = .ok options.textEncoding

theorem ofEntries_ok_iff : ofEntries codecs entries = .ok options ↔
    (∀ key ∈ entries.map Prod.fst, IsName key) ∧ Reads codecs entries options := by
  rw [← unknownNames?_eq_nil_iff]
  unfold ofEntries
  constructor
  · intro h
    cases hnames : unknownNames? (entries.map Prod.fst) with
    | none =>
      rw [hnames] at h
      cases h
    | some unknown =>
      rw [hnames] at h
      cases unknown with
      | cons name rest => cases h
      | nil =>
        obtain ⟨endian, hendian, h⟩ := Except.bind_ok_iff.1 h
        obtain ⟨strict, hstrict, h⟩ := Except.bind_ok_iff.1 h
        obtain ⟨limit, hlimit, h⟩ := Except.bind_ok_iff.1 h
        obtain ⟨encoding, hencoding, h⟩ := Except.bind_ok_iff.1 h
        cases h
        exact ⟨rfl, hendian, hstrict, hlimit, hencoding⟩
  · rintro ⟨hnames, hreads⟩
    rw [hnames]
    dsimp only
    rw [hreads.endian, hreads.strictEnums, hreads.maxLoopIterations, hreads.textEncoding]
    rfl

theorem read_or {α : Type} {read : Option Datum → Except OptionsError α} {before after : Option Datum}
    (h : read before = read after) (value : Option Datum) :
    read (value.or before) = read (value.or after) := by
  cases value with
  | none => exact h
  | some value => rfl

/-- Overrides of entries that are read as the same options are read as the same options. -/
theorem Reads.setAll (hown : Reads codecs own once) (hother : Reads codecs other once)
    (h : Reads codecs (Datum.setAll own given) options) :
    Reads codecs (Datum.setAll other given) options := by
  obtain ⟨hendian, hstrict, hlimit, hencoding⟩ := h
  rw [Datum.lookup?_setAll] at hendian hstrict hlimit hencoding
  constructor
  · rw [Datum.lookup?_setAll, read_or (hother.endian.trans hown.endian.symm), hendian]
  · rw [Datum.lookup?_setAll, read_or (hother.strictEnums.trans hown.strictEnums.symm), hstrict]
  · rw [Datum.lookup?_setAll, read_or (hother.maxLoopIterations.trans hown.maxLoopIterations.symm),
      hlimit]
  · rw [Datum.lookup?_setAll, read_or (hother.textEncoding.trans hown.textEncoding.symm), hencoding]

/-- Options are read by what stands under each name, in whatever map. -/
theorem Reads.congr (h : Reads codecs own options)
    (hsame : ∀ name, Datum.lookup? other (.text name) = Datum.lookup? own (.text name)) :
    Reads codecs other options := by
  obtain ⟨hendian, hstrict, hlimit, hencoding⟩ := h
  constructor <;> rw [hsame] <;> assumption

/-! ### Written forms -/

/-- That the text encoding is the one under its label. -/
structure Legible (codecs : Text.Codecs) (options : Options) : Prop where
  noNul : options.textEncoding.label.toList.contains '\x00' = false
  found : codecs.find? options.textEncoding.label = some options.textEncoding.codec

theorem legible_ascii (h : options.textEncoding = .ascii) : options.Legible codecs := by
  constructor <;> rw [h]
  · decide
  · exact codecs.ascii

theorem readTextEncoding_ok {value : Option Datum}
    (h : readTextEncoding codecs value = .ok options.textEncoding) : options.Legible codecs := by
  unfold readTextEncoding at h
  split at h
  · exact legible_ascii (Except.ok.inj h).symm
  · rename_i label
    split at h
    · cases h
    · rename_i hlabel
      split at h
      · rename_i codec hfound
        constructor <;> rw [← Except.ok.inj h]
        · simpa using hlabel
        · exact hfound
      · cases h
  · cases h
  · cases h

theorem legible_of_ofEntries (h : ofEntries codecs entries = .ok options) : options.Legible codecs :=
  readTextEncoding_ok (ofEntries_ok_iff.1 h).2.textEncoding

theorem legible_of_ofDatum {datum : Datum} (h : ofDatum codecs datum = .ok options) :
    options.Legible codecs := by
  have hnames {keys : List Datum} (hkeys : ofDatum.ofNames keys = .ok options) :
      options.Legible codecs := by
    unfold ofDatum.ofNames at hkeys
    split at hkeys
    · cases hkeys
      exact legible_ascii rfl
    · cases hkeys
    · cases hkeys
  cases datum with
  | map entries => exact legible_of_ofEntries h
  | text s => exact hnames h
  | codes points => exact hnames h
  | list items => exact hnames h
  | _ => cases h

theorem reads_entries (h : options.Legible codecs) : Reads codecs options.entries options := by
  constructor
  · show readEndian (some (.text options.endian.name)) = _
    cases options.endian <;> rfl
  · rfl
  · obtain ⟨endian, strictEnums, limit, encoding⟩ := options
    obtain _ | ⟨_ | limit, hpositive⟩ := limit
    · rfl
    · cases hpositive
    · rfl
  · show readTextEncoding codecs (some (.text options.textEncoding.label)) = _
    rw [readTextEncoding, if_neg (by rw [h.noNul]; exact Bool.false_ne_true), h.found]

theorem ofEntries_entries (h : options.Legible codecs) : ofEntries codecs options.entries = .ok options :=
  ofEntries_ok_iff.2 ⟨fun _ hkey => isName_of_mem_entries hkey, reads_entries h⟩

/-! ### Merging -/

theorem merged_ok_iff : options.merged codecs (.map given) = .ok once ↔
    (∀ key ∈ given.map Prod.fst, IsName key) ∧
      Reads codecs (Datum.setAll options.entries given) once := by
  refine ofEntries_ok_iff.trans (and_congr_left' ?_)
  refine (Datum.forall_keys_setAll isName_of_sameKey).trans (and_iff_right ?_)
  exact fun _ hkey => isName_of_mem_entries hkey

theorem merged_nothing (h : options.Legible codecs) : options.merged codecs (.map []) = .ok options :=
  merged_ok_iff.2 ⟨List.forall_mem_nil _, reads_entries h⟩

theorem merged_merged_iff {first second : List (Datum × Datum)} {twice : Options}
    (honce : options.merged codecs (.map first) = .ok once) :
    once.merged codecs (.map second) = .ok twice ↔
      options.merged codecs (Datum.ofEntries (first ++ second)) = .ok twice := by
  obtain ⟨hfirst, hreads⟩ := merged_ok_iff.1 honce
  have hown : Reads codecs once.entries once := reads_entries (readTextEncoding_ok hreads.textEncoding)
  have hboth (name : String) : Datum.lookup? (Datum.setAll options.entries
      (Datum.setAll [] (first ++ second))) (.text name)
      = Datum.lookup? (Datum.setAll (Datum.setAll options.entries first) second) (.text name) := by
    rw [Datum.lookup?_setAll_setAll, Datum.setAll_append]
  have hnames : (∀ key ∈ (Datum.setAll [] (first ++ second)).map Prod.fst, IsName key)
      ↔ ∀ key ∈ second.map Prod.fst, IsName key := by
    rw [Datum.forall_keys_setAll isName_of_sameKey, List.map_append, List.forall_mem_append]
    exact ⟨fun h => h.2.2, fun h => ⟨List.forall_mem_nil _, hfirst, h⟩⟩
  rw [merged_ok_iff, show Datum.ofEntries (first ++ second)
    = .map (Datum.setAll [] (first ++ second)) from rfl, merged_ok_iff, hnames]
  refine and_congr_right fun _ => ⟨fun h => ?_, fun h => ?_⟩
  · exact (hown.setAll hreads h).congr hboth
  · exact hreads.setAll hown (h.congr fun name => (hboth name).symm)

/-! ### Refusals -/

theorem exists_of_mapM {α β : Type} {f : α → Option β} {items : List α} (h : items.mapM f = none) :
    ∃ item ∈ items, f item = none := by
  induction items with
  | nil => cases h
  | cons item rest ih =>
    rw [List.mapM_cons] at h
    cases hitem : f item with
    | none => exact ⟨item, List.mem_cons_self, hitem⟩
    | some result =>
      rw [hitem] at h
      cases hrest : rest.mapM f with
      | none =>
        obtain ⟨other, hother, hnone⟩ := ih hrest
        exact ⟨other, List.mem_cons_of_mem _ hother, hnone⟩
      | some results =>
        rw [hrest] at h
        cases h

theorem exists_of_unknownNames? {keys : List Datum} (h : unknownNames? keys = none) :
    ∃ key ∈ keys, ¬ key.IsText := by
  obtain ⟨key, hkey, hnone⟩ := exists_of_mapM (Option.map_eq_none_iff.1 h)
  refine ⟨key, (List.mem_filter.1 hkey).1, ?_⟩
  intro htext
  cases key with
  | text name => cases hnone
  | codes points => cases hnone
  | _ => exact htext

theorem readEndian_error {value : Option Datum} (h : readEndian value = .error e) :
    e.isAboutContent = true := by
  unfold readEndian at h
  split at h
  · cases h
  · split at h <;> cases h
    rfl
  · cases h
    rfl

theorem readStrictEnums_error {value : Option Datum} (h : readStrictEnums value = .error e) :
    e.isAboutContent = true := by
  unfold readStrictEnums at h
  split at h <;> cases h
  rfl

theorem readLoopLimit_error {value : Option Datum} (h : readLoopLimit value = .error e) :
    e.isAboutContent = true := by
  unfold readLoopLimit at h
  split at h <;> cases h
  rfl

theorem readTextEncoding_error {value : Option Datum} (h : readTextEncoding codecs value = .error e) :
    e.isAboutContent = true := by
  unfold readTextEncoding at h
  split at h
  · cases h
  · split at h
    · cases h
      rfl
    · split at h <;> cases h
      rfl
  · cases h
    rfl
  · cases h
    rfl

/-- Data that have the form of options are refused for their values only. -/
theorem ofEntries_error {entries : List (Datum × Datum)} (h : ofEntries codecs entries = .error e)
    (hcontent : e.isAboutContent = false) :
    e = .notNamed ∧ ∃ key ∈ entries.map Prod.fst, ¬ key.IsText := by
  unfold ofEntries at h
  cases hnames : unknownNames? (entries.map Prod.fst) with
  | none =>
    rw [hnames] at h
    cases h
    exact ⟨rfl, exists_of_unknownNames? hnames⟩
  | some unknown =>
    rw [hnames] at h
    cases unknown with
    | cons name rest =>
      cases h
      cases hcontent
    | nil =>
      -- The values are read one after another.
      exfalso
      rcases Except.bind_error_iff.1 h with h | ⟨endian, -, h⟩
      · rw [readEndian_error h] at hcontent
        cases hcontent
      rcases Except.bind_error_iff.1 h with h | ⟨strict, -, h⟩
      · rw [readStrictEnums_error h] at hcontent
        cases hcontent
      rcases Except.bind_error_iff.1 h with h | ⟨limit, -, h⟩
      · rw [readLoopLimit_error h] at hcontent
        cases hcontent
      rcases Except.bind_error_iff.1 h with h | ⟨encoding, -, h⟩
      · rw [readTextEncoding_error h] at hcontent
        cases hcontent
      · cases h

theorem merged_error {overrides : Datum} (h : options.merged codecs overrides = .error e)
    (hcontent : e.isAboutContent = false) : e = .notNamed ∧ ¬ overrides.HasNames := by
  cases overrides with
  | map given =>
    obtain ⟨rfl, key, hkey, htext⟩ := ofEntries_error h hcontent
    refine ⟨rfl, ?_⟩
    rintro ⟨_, ⟨⟩, hnames⟩
    have hall : ∀ key ∈ (Datum.setAll options.entries given).map Prod.fst, key.IsText :=
      (Datum.forall_keys_setAll fun _ _ => Datum.isText_of_sameKey).2
        ⟨fun _ hown => (isName_of_mem_entries hown).isText, List.forall_mem_map.2 hnames⟩
    exact htext (hall key hkey)
  | _ =>
    cases h
    refine ⟨rfl, ?_⟩
    rintro ⟨_, hmap, -⟩
    cases hmap

/-! ### Composition -/

/-- Options that were read are read as themselves from their written form. Once overrides are accepted,
others that follow them are accepted exactly if both are accepted at once, and then give the same options.
Overrides with names are refused for their content only, and the options that they were meant for stay what
they were: nothing set over them gives them back. -/
theorem merging_composes {datum : Datum} (hread : ofDatum codecs datum = .ok options) :
    ofDatum codecs options.toDatum = .ok options ∧
      (∀ first second once, options.merged codecs (.map first) = .ok once → ∀ twice,
        once.merged codecs (.map second) = .ok twice ↔
          options.merged codecs (Datum.ofEntries (first ++ second)) = .ok twice) ∧
      (∀ overrides e, options.merged codecs overrides = .error e → overrides.HasNames →
        e.isAboutContent = true) ∧
      options.merged codecs (.map []) = .ok options := by
  have hwritten := ofEntries_entries (legible_of_ofDatum hread)
  refine ⟨hwritten, fun _ _ _ honce _ => merged_merged_iff honce, ?_, hwritten⟩
  intro overrides e herror hnames
  cases hcontent : e.isAboutContent with
  | true => rfl
  | false => exact absurd hnames (merged_error herror hcontent).2

/-- The byte order is set, set back and set to one that does not exist. -/
theorem merging_composes_endian :
    let codecs := Text.Codecs.listed
    let datum := Datum.map [(.text "endian", .text "big"), (.text "max_loop_iterations", .int 5)]
    let options : Options := { endian := .big, maxLoopIterations := some ⟨5, by decide⟩ }
    let once : Options := { options with endian := .little, strictEnums := true }
    let twice : Options := { once with endian := .big, maxLoopIterations := none }
    let first := [(.text "endian", .text "little"), (.text "strict_enums", Datum.bool true)]
    let second := [(.text "max_loop_iterations", .null), (.text "endian", Datum.text "big")]
    let third := Datum.map [(.text "endian", .text "middle")]
    ofDatum codecs datum = .ok options ∧ ofDatum codecs options.toDatum = .ok options ∧
      options.merged codecs (.map first) = .ok once ∧ once.merged codecs (.map second) = .ok twice ∧
      options.merged codecs (Datum.ofEntries (first ++ second)) = .ok twice ∧ third.HasNames ∧
      (∃ e, options.merged codecs third = .error e ∧ e.isAboutContent = true) ∧
      options.merged codecs (.map []) = .ok options := by
  intro codecs datum options once twice first second third
  have hread : ofDatum codecs datum = .ok options :=
    ofEntries_ok_iff.2 ⟨by simp [IsName, names], rfl, rfl, rfl, rfl⟩
  have hascii : readTextEncoding codecs (some (.text "ascii")) = .ok .ascii :=
    (reads_entries (legible_of_ofDatum hread)).textEncoding
  have honce : options.merged codecs (.map first) = .ok once :=
    merged_ok_iff.2 ⟨by simp [first, IsName, names], rfl, rfl, rfl, hascii⟩
  have htwice : once.merged codecs (.map second) = .ok twice :=
    merged_ok_iff.2 ⟨by simp [second, IsName, names], rfl, rfl, rfl, hascii⟩
  have hnames : third.HasNames := ⟨_, rfl, fun entry hentry => by
    rw [List.mem_singleton.1 hentry]
    trivial⟩
  obtain ⟨hwritten, hcomposes, hrefuses, hnothing⟩ := merging_composes hread
  refine ⟨hread, hwritten, honce, htwice, (hcomposes _ _ _ honce _).1 htwice, hnames, ?_, hnothing⟩
  cases hthird : options.merged codecs third with
  | error e => exact ⟨e, rfl, hrefuses _ _ hthird hnames⟩
  | ok other => cases (merged_ok_iff.1 hthird).2.endian

end BinarySchema.Options
