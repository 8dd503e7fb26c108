import BinarySchema.Proofs.Schema.Identifiers
import BinarySchema.Proofs.Schema.Spelling
import Mathlib

/-!
# Enum declarations

An enum lists its members in rows: a name, and an equals sign with a numeral that may have a minus in
front of it. Rows have commas between them, and one more may stand behind the last row. A member without a
numeral goes on from the one before it, so its value is that of the last numeral up to it plus the distance,
or its own index if there is none.

The reader carries the next value and the next token along. What it accepts is told in both directions by
`enumMembers_ok` and `enumMembers_of_lists`, by the rows that the tokens spell: comments are no part of
this, and nothing else is passed over.
-/

namespace BinarySchema

open Outline (solid)

/-! ### Rows -/

structure SignedNumeral where
  negative : Bool
  numeral : String
  deriving DecidableEq, Repr

namespace SignedNumeral

def pieces (signed : SignedNumeral) : List Piece :=
  if signed.negative then [.sign "-", ⟨.number, signed.numeral⟩] else [⟨.number, signed.numeral⟩]

def value (signed : SignedNumeral) : Int :=
  if signed.negative then -(Number.numeralValue signed.numeral.toList : Int)
  else Number.numeralValue signed.numeral.toList

/-- That the numeral is within the limit of decimal digits. -/
def IsReadable (signed : SignedNumeral) : Prop :=
  Number.IsReadable signed.numeral.toList

instance (signed : SignedNumeral) : Decidable signed.IsReadable :=
  inferInstanceAs (Decidable (Number.IsReadable _))

end SignedNumeral

/-- A member of an enum as it is written. -/
structure EnumRow where
  name : String
  explicit : Option SignedNumeral := none
  deriving DecidableEq, Repr

namespace EnumRow

/-- The pieces behind the name of a row. -/
def assigned : Option SignedNumeral → List Piece
  | none => []
  | some signed => .sign "=" :: signed.pieces

def pieces (row : EnumRow) : List Piece :=
  .word row.name :: assigned row.explicit

def value? (row : EnumRow) : Option Int :=
  row.explicit.map SignedNumeral.value

/-- That a row has a plain name, and a numeral that can be read if it has one. -/
structure IsWritten (row : EnumRow) : Prop where
  name : Lexeme.isIdentifier row.name.toList = true
  explicit : ∀ signed ∈ row.explicit, signed.IsReadable

/-- Rows with commas between them, and behind the last one if it is trailed. -/
def listing (rows : List EnumRow) (trailed : Bool) : List Piece :=
  [.mark ","].intercalate (rows.map pieces) ++ if trailed then [.mark ","] else []

/-- That pieces list rows and close the braces around them. -/
inductive Lists : List EnumRow → List Piece → Prop
  | close : Lists [] [.mark "\x7d"]
  | last (row : EnumRow) : Lists [row] (row.pieces ++ [.mark "\x7d"])
  | more (row : EnumRow) {rest : List EnumRow} {pieces : List Piece} (h : Lists rest pieces) :
      Lists (row :: rest) (row.pieces ++ .mark "," :: pieces)

/-- The members of rows, the first of which has a value unless it gives its own. -/
def members (value : Int) : List EnumRow → List EnumMember
  | [] => []
  | row :: rest => ⟨row.name, row.value?.getD value⟩ :: members (row.value?.getD value + 1) rest

/-- That the last value given up to an index is that of a row. -/
structure Governs (rows : List EnumRow) (index row : Nat) (value : Int) : Prop where
  le : row ≤ index
  value : rows[row]?.bind value? = some value
  last : ∀ later, row < later → later ≤ index → rows[later]?.bind value? = none

/-- That members are numbered by their rows. -/
structure Numbers (rows : List EnumRow) (members : List EnumMember) : Prop where
  names : members.map EnumMember.name = rows.map EnumRow.name
  given : ∀ {index row : Nat} {value : Int} {member : EnumMember}, members[index]? = some member →
    Governs rows index row value → member.value = value + (index - row : Nat)
  counted : ∀ {index : Nat} {member : EnumMember}, members[index]? = some member →
    (∀ row ≤ index, rows[row]?.bind value? = none) → member.value = index

/-! ### Numbering -/

theorem names_members (value : Int) (rows : List EnumRow) :
    (members value rows).map EnumMember.name = rows.map EnumRow.name := by
  induction rows generalizing value with
  | nil => rfl
  | cons row rest ih => exact congrArg (row.name :: ·) (ih _)

/-- Members go on from the last value that is given, and from the start if there is none. -/
theorem value_members {start : Int} {rows : List EnumRow} {index : Nat} {member : EnumMember}
    (h : (members start rows)[index]? = some member) :
    (∀ row value, Governs rows index row value → member.value = value + (index - row : Nat)) ∧
      ((∀ row ≤ index, rows[row]?.bind value? = none) → member.value = start + index) := by
  induction rows generalizing start index with
  | nil => cases h
  | cons head rest ih =>
    cases index with
    | zero =>
      obtain rfl := Option.some.inj h
      constructor
      · intro row value hgoverns
        obtain rfl := Nat.le_zero.1 hgoverns.le
        have hvalue : head.value? = some value := hgoverns.value
        simp [hvalue]
      · intro hnone
        have hvalue : head.value? = none := hnone 0 (Nat.le_refl _)
        simp [hvalue]
    | succ index =>
      obtain ⟨hgiven, hcounted⟩ := ih h
      constructor
      · intro row value hgoverns
        cases row with
        | succ row =>
          have hrest : Governs rest index row value :=
            ⟨Nat.le_of_succ_le_succ hgoverns.le, hgoverns.value, fun later hlater hle =>
              hgoverns.last (later + 1) (Nat.succ_lt_succ hlater) (Nat.succ_le_succ hle)⟩
          rw [hgiven row value hrest, Nat.succ_sub_succ]
        | zero =>
          have hvalue : head.value? = some value := hgoverns.value
          have hnone : ∀ row ≤ index, rest[row]?.bind value? = none := fun row hrow =>
            hgoverns.last (row + 1) (Nat.succ_pos _) (Nat.succ_le_succ hrow)
          rw [hcounted hnone, hvalue]
          simp only [Option.getD_some]
          omega
      · intro hnone
        have hvalue : head.value? = none := hnone 0 (Nat.zero_le _)
        have hrest : ∀ row ≤ index, rest[row]?.bind value? = none := fun row hrow =>
          hnone (row + 1) (Nat.succ_le_succ hrow)
        rw [hcounted hrest, hvalue]
        simp only [Option.getD_none]
        omega

theorem numbers_members (rows : List EnumRow) : Numbers rows (members 0 rows) where
  names := names_members 0 rows
  given h := (value_members h).1 _ _
  counted h hnone := by rw [(value_members h).2 hnone, Int.zero_add]

/-! ### Lists of rows -/

theorem listing_cons (row next : EnumRow) (rest : List EnumRow) (trailed : Bool) :
    listing (row :: next :: rest) trailed = row.pieces ++ .mark "," :: listing (next :: rest) trailed := by
  unfold listing
  simp [List.intercalate]

theorem listing_single (row : EnumRow) (trailed : Bool) :
    listing [row] trailed = row.pieces ++ if trailed then [.mark ","] else [] := by
  unfold listing
  simp [List.intercalate]

/-- Rows are listed with commas between them, and one behind them only if there are any. -/
theorem lists_iff {rows : List EnumRow} {pieces : List Piece} : Lists rows pieces ↔
    ∃ trailed, (trailed = true → rows ≠ []) ∧ pieces = listing rows trailed ++ [.mark "\x7d"] := by
  constructor
  · intro h
    induction h with
    | close => exact ⟨false, nofun, rfl⟩
    | last row => exact ⟨false, nofun, by simp [listing_single]⟩
    | more row hrest ih =>
      rename_i rest _
      obtain ⟨trailed, htrailed, rfl⟩ := ih
      cases rest with
      | nil =>
        have hfalse : trailed = false := by
          rw [← Bool.not_eq_true]
          exact fun h => htrailed h rfl
        exact ⟨true, nofun, by simp [hfalse, listing, List.intercalate]⟩
      | cons next rest => exact ⟨trailed, nofun, by simp [listing_cons]⟩
  · rintro ⟨trailed, htrailed, rfl⟩
    induction rows with
    | nil =>
      cases trailed with
      | false => exact .close
      | true => exact absurd rfl (htrailed rfl)
    | cons row rest ih =>
      cases rest with
      | nil =>
        rw [listing_single]
        cases trailed with
        | false => simpa using Lists.last row
        | true => simpa using Lists.more row .close
      | cons next rest =>
        rw [listing_cons, List.append_assoc, List.cons_append]
        exact .more row (ih nofun)

theorem Lists.kind_ne {rows : List EnumRow} {piece : Piece} {rest : List Piece}
    (h : Lists rows (piece :: rest)) : piece.kind ≠ .endOfInput := by
  cases h <;> nofun

theorem Lists.length_lt {rows : List EnumRow} {pieces : List Piece} (h : Lists rows pieces) :
    rows.length < pieces.length := by
  induction h with
  | close => exact Nat.one_pos
  | last row => simp [EnumRow.pieces]
  | more row _ ih =>
    simp only [EnumRow.pieces, List.length_cons, List.length_append]
    omega

end EnumRow

/-! ### Blocks -/

/-- What stands behind the name of an enum, as it is written. -/
structure EnumBlock where
  base : String
  rows : List EnumRow
  trailed : Bool := false
  deriving DecidableEq, Repr

namespace EnumBlock

def pieces (block : EnumBlock) : List Piece :=
  .mark ":" :: .word block.base :: .mark "\x7b" ::
    (EnumRow.listing block.rows block.trailed ++ [.mark "\x7d"])

/-- That the base is a primitive, the rows are written as they should be, and no comma stands without a
row. -/
structure IsWritten (block : EnumBlock) : Prop where
  base : (Primitive.ofWord? block.base).isSome
  rows : ∀ row ∈ block.rows, row.IsWritten
  trailed : block.trailed = true → block.rows ≠ []

end EnumBlock

/-- That an enum is declared by some tokens, from its name on, in a block whose base and members it has. -/
def EnumDef.ListedIn (tokens : List Token) (enum : EnumDef) : Prop :=
  ∃ block : EnumBlock, block.IsWritten ∧
    .word enum.name :: block.pieces <+: solid Token.solid? (tokensFrom enum.pos tokens) ∧
      Primitive.ofWord? block.base = some enum.base ∧ EnumRow.Numbers block.rows enum.members

namespace Reader

variable {types : TypeTable} {c d e : Cursor} {token name : Token} {rest : List Piece} {ending : Ending}

/-! ### Rows that are read -/

/-- A value is read where a signed number stands. -/
theorem enumValue_ok_iff {value : Int} (hc : c.Holds Token.IsNumeral ending) :
    enumValue c = .ok (value, d) ↔
      ∃ signed : SignedNumeral, Spells c signed.pieces d ∧ signed.IsReadable ∧ value = signed.value := by
  rw [enumValue_eq, bind_ok_iff]
  constructor
  · rintro ⟨token, e, hnext, h⟩
    by_cases hminus : token.isOperator "-" = true
    · rw [if_pos hminus] at h
      obtain ⟨n, _, hvalue, h⟩ := bind_ok_iff.1 h
      obtain ⟨rfl, rfl⟩ := pure_ok_iff.1 h
      obtain ⟨number, hnumber, hkind, hreadable, rfl⟩ :=
        (expectNumber_ok_iff (Draws.next.of_ok hc hnext).1).1 hvalue
      have hsign : token.piece = .sign "-" := Token.isOperator_iff.1 hminus
      have hspells := (Spells.of_number hnumber hkind).of_next hnext hsign (by decide)
      exact ⟨⟨true, number.text⟩, hspells, hreadable, rfl⟩
    rw [if_neg hminus] at h
    by_cases hkind : token.kind = .number
    · rw [if_pos hkind] at h
      obtain ⟨n, _, hvalue, h⟩ := bind_ok_iff.1 h
      obtain ⟨rfl, rfl⟩ := pure_ok_iff.1 h
      obtain ⟨hreadable, rfl, rfl⟩ :=
        (numberValue_ok_iff hkind (isNumeral_of_next hc hnext)).1 hvalue
      exact ⟨⟨false, token.text⟩, .of_number hnext hkind, hreadable, rfl⟩
    · rw [if_neg hkind] at h
      exact (throw_ok_iff.1 h).elim
  · rintro ⟨⟨negative, numeral⟩, hspells, hreadable, rfl⟩
    cases negative with
    | true =>
      obtain ⟨token, e, hsign, hnext, hspells⟩ := hspells.exists_next
      obtain ⟨number, e', hnumber, hnext', hspells⟩ := hspells.exists_next
      obtain rfl := hspells.eq_of_nil
      obtain ⟨hkind, rfl⟩ := Piece.mk.inj hnumber
      have he := (Draws.next.of_ok hc hnext).1
      refine ⟨token, e, hnext, ?_⟩
      rw [if_pos (Token.isOperator_iff.2 hsign), bind_ok_iff]
      exact ⟨_, e', (expectNumber_ok_iff he).2 ⟨number, hnext', hkind, hreadable, rfl⟩, rfl⟩
    | false =>
      obtain ⟨token, e, hnumber, hnext, hspells⟩ := hspells.exists_next
      obtain rfl := hspells.eq_of_nil
      have hminus : ¬ token.isOperator "-" = true := by
        rw [Token.isOperator_iff, hnumber]
        simp [Piece.sign]
      obtain ⟨hkind, rfl⟩ := Piece.mk.inj hnumber
      refine ⟨token, e, hnext, ?_⟩
      rw [if_neg hminus, if_pos hkind, bind_ok_iff]
      exact ⟨_, e, (numberValue_ok_iff hkind (isNumeral_of_next hc hnext)).2 ⟨hreadable, rfl, rfl⟩, rfl⟩

/-- What stands behind a name: an equals sign with a value or nothing, and the mark behind it. -/
def enumAssigned (value : Int) : Reader (Int × Token) := do
  let mark ← next
  if mark.isOperator "=" then
    let own ← enumValue
    let mark ← next
    return (own, mark)
  return (value, mark)

/-- What stands behind a row: more of them, or the closing brace. -/
def enumBehind (steps : Nat) (member : EnumMember) (mark : Token) : Reader (List EnumMember) := do
  if mark.isPunctuation "," then
    let token ← next
    let rest ← enumMembers steps (member.value + 1) token
    return member :: rest
  if mark.isPunctuation "\x7d" then return [member]
  unexpected "[,] or [\x7d]" mark

theorem enumMembers_succ (steps : Nat) (value : Int) (token : Token) :
    enumMembers (steps + 1) value token =
      if token.isPunctuation "\x7d" then pure []
      else if !isPlainName token then unexpected "enum member name" token
      else enumAssigned value >>= fun read => enumBehind steps ⟨token.text, read.1⟩ read.2 := by
  unfold enumMembers enumAssigned enumBehind
  simp only [bind_assoc]
  split
  · rfl
  split
  · rfl
  congr 1
  funext mark
  split
  · simp only [bind_assoc, pure_bind]
    rfl
  · simp only [pure_bind]
    split
    · rfl
    · split <;> rfl

theorem enumAssigned_ok_iff {value own : Int} {mark : Token} (hc : c.Holds Token.IsNumeral ending) :
    enumAssigned value c = .ok ((own, mark), d) ↔ ∃ explicit e, Spells c (EnumRow.assigned explicit) e ∧
      next e = .ok (mark, d) ∧ (∀ signed ∈ explicit, signed.IsReadable) ∧
        own = (explicit.map SignedNumeral.value).getD value ∧
          (explicit = none → ¬ mark.isOperator "=" = true) := by
  unfold enumAssigned
  rw [bind_ok_iff]
  constructor
  · rintro ⟨first, e, hnext, h⟩
    by_cases hequals : first.isOperator "=" = true
    · rw [if_pos hequals] at h
      obtain ⟨value, e', hvalue, h⟩ := bind_ok_iff.1 h
      obtain ⟨read, e'', hnext', h⟩ := bind_ok_iff.1 h
      obtain ⟨heq, rfl⟩ := pure_ok_iff.1 h
      cases heq
      obtain ⟨signed, hspells, hreadable, rfl⟩ :=
        (enumValue_ok_iff (Draws.next.of_ok hc hnext).1).1 hvalue
      have hsign : first.piece = .sign "=" := Token.isOperator_iff.1 hequals
      refine ⟨some signed, e', hspells.of_next hnext hsign nofun, hnext', ?_, rfl, nofun⟩
      rintro _ ⟨⟩
      exact hreadable
    · rw [if_neg hequals] at h
      obtain ⟨heq, rfl⟩ := pure_ok_iff.1 h
      cases heq
      exact ⟨none, c, .nil c, hnext, nofun, rfl, fun _ => hequals⟩
  · rintro ⟨explicit, e, hspells, hnext, hreadable, rfl, hequals⟩
    cases explicit with
    | none =>
      obtain rfl := hspells.eq_of_nil
      refine ⟨mark, d, hnext, ?_⟩
      rw [if_neg (hequals rfl)]
      rfl
    | some signed =>
      obtain ⟨first, e', hsign, hnext', hspells⟩ := hspells.exists_next
      refine ⟨first, e', hnext', ?_⟩
      have hvalue := (enumValue_ok_iff (Draws.next.of_ok hc hnext').1).2
        ⟨signed, hspells, hreadable signed rfl, rfl⟩
      rw [if_pos (Token.isOperator_iff.2 hsign), bind_ok_iff]
      exact ⟨_, e, hvalue, bind_ok_iff.2 ⟨mark, d, hnext, rfl⟩⟩

/-- Members that are read are those of rows that stand there. -/
theorem enumMembers_ok {steps : Nat} {value : Int} {members : List EnumMember}
    (hc : c.Holds Token.IsNumeral ending) (h : enumMembers steps value token c = .ok (members, d)) :
    ∃ rows pieces, EnumRow.Lists rows (token.piece :: pieces) ∧ Spells c pieces d ∧
      (∀ row ∈ rows, row.IsWritten) ∧ members = EnumRow.members value rows := by
  induction steps generalizing value token c members with
  | zero => exact (unexpectedEnd_ok_iff.1 h).elim
  | succ steps ih =>
    rw [enumMembers_succ] at h
    by_cases hclose : token.isPunctuation "\x7d" = true
    · rw [if_pos hclose] at h
      obtain ⟨rfl, rfl⟩ := pure_ok_iff.1 h
      refine ⟨[], [], ?_, .nil c, nofun, rfl⟩
      rw [Token.isPunctuation_iff.1 hclose]
      exact .close
    rw [if_neg hclose] at h
    by_cases hname : isPlainName token = true
    case neg =>
      rw [if_pos (by simpa using hname)] at h
      exact (throw_ok_iff.1 h).elim
    rw [if_neg (by simpa using hname)] at h
    obtain ⟨⟨own, mark⟩, e', hassigned, h⟩ := bind_ok_iff.1 h
    obtain ⟨explicit, e, hspells, hnext, hreadable, rfl, -⟩ := (enumAssigned_ok_iff hc).1 hassigned
    have hwritten : EnumRow.IsWritten ⟨token.text, explicit⟩ :=
      ⟨isIdentifier_of_isPlainName hname, hreadable⟩
    have he := (Draws.next.of_ok (hspells.holds hc) hnext).1
    rw [piece_of_isPlainName hname]
    dsimp only [enumBehind] at h
    by_cases hcomma : mark.isPunctuation "," = true
    · rw [if_pos hcomma] at h
      obtain ⟨first, e'', hfirst, h⟩ := bind_ok_iff.1 h
      obtain ⟨rest, _, hrest, h⟩ := bind_ok_iff.1 h
      obtain ⟨rfl, rfl⟩ := pure_ok_iff.1 h
      obtain ⟨rows, pieces, hlists, hbehind, hrows, rfl⟩ := ih (Draws.next.of_ok he hfirst).1 hrest
      have htail := (hbehind.of_next hfirst rfl hlists.kind_ne).of_next hnext
        (Token.isPunctuation_iff.1 hcomma) nofun
      exact ⟨_, _, .more ⟨token.text, explicit⟩ hlists, hspells.append htail,
        List.forall_mem_cons.2 ⟨hwritten, hrows⟩, rfl⟩
    rw [if_neg hcomma] at h
    by_cases hend : mark.isPunctuation "\x7d" = true
    · rw [if_pos hend] at h
      obtain ⟨rfl, rfl⟩ := pure_ok_iff.1 h
      have htail := (Spells.nil e').of_next hnext (Token.isPunctuation_iff.1 hend) nofun
      exact ⟨_, _, .last ⟨token.text, explicit⟩, hspells.append htail,
        List.forall_mem_singleton.2 hwritten, rfl⟩
    · rw [if_neg hend] at h
      exact (throw_ok_iff.1 h).elim

theorem exists_first {rows : List EnumRow} {pieces : List Piece} (hlists : EnumRow.Lists rows pieces)
    (hspells : Spells c pieces d) : ∃ first behind e, pieces = first.piece :: behind ∧
      next c = .ok (first, e) ∧ Spells e behind d := by
  obtain ⟨piece, behind, rfl⟩ :=
    List.exists_cons_of_ne_nil (List.ne_nil_of_length_pos (Nat.zero_lt_of_lt hlists.length_lt))
  obtain ⟨first, e, rfl, hfirst, hbehind⟩ := hspells.exists_next
  exact ⟨first, behind, e, rfl, hfirst, hbehind⟩

theorem enumMembers_row {row : EnumRow} {closer : String} (hc : c.Holds Token.IsNumeral ending)
    (hname : token.piece = .word row.name) (hwritten : row.IsWritten)
    (hspells : Spells c (EnumRow.assigned row.explicit ++ .mark closer :: rest) d) (steps : Nat)
    (value : Int) : ∃ mark e, mark.piece = .mark closer ∧ e.Holds Token.IsNumeral ending ∧
      Spells e rest d ∧ enumMembers (steps + 1) value token c
        = enumBehind steps ⟨row.name, row.value?.getD value⟩ mark e := by
  obtain ⟨kind, text, pos⟩ := token
  obtain ⟨rfl, rfl⟩ := Piece.mk.inj hname
  obtain ⟨e', hassigned, hspells⟩ := hspells.split
  obtain ⟨mark, e, hmark, hnext, hrest⟩ := hspells.exists_next
  have hequals : ¬ mark.isOperator "=" = true := by
    rw [Token.isOperator_iff, hmark]
    nofun
  have hread : enumAssigned value c = .ok ((row.value?.getD value, mark), e) := (enumAssigned_ok_iff hc).2
    ⟨row.explicit, e', hassigned, hnext, hwritten.explicit, rfl, fun _ => hequals⟩
  refine ⟨mark, e, hmark, (Draws.next.of_ok (hassigned.holds hc) hnext).1, hrest, ?_⟩
  rw [enumMembers_succ, if_neg (Token.not_isPunctuation_of_word rfl _),
    if_neg (Reads.isPlainName hwritten.name rfl), bind_of_ok hread]

/-- Rows that stand there are read, and give their members. -/
theorem enumMembers_of_lists {steps : Nat} {value : Int} {rows : List EnumRow} {pieces : List Piece}
    (hc : c.Holds Token.IsNumeral ending) (hlists : EnumRow.Lists rows (token.piece :: pieces))
    (hspells : Spells c pieces d) (hrows : ∀ row ∈ rows, row.IsWritten) (hsteps : rows.length < steps) :
    enumMembers steps value token c = .ok (EnumRow.members value rows, d) := by
  generalize hall : token.piece :: pieces = all at hlists
  induction hlists generalizing steps value token c pieces with
  | close =>
    obtain ⟨steps, rfl⟩ := Nat.exists_eq_add_one_of_ne_zero (Nat.ne_zero_of_lt hsteps)
    obtain ⟨hclose, rfl⟩ := List.cons.inj hall
    obtain rfl := hspells.eq_of_nil
    rw [enumMembers_succ, if_pos (Token.isPunctuation_iff.2 hclose)]
    rfl
  | last row =>
    obtain ⟨steps, rfl⟩ := Nat.exists_eq_add_one_of_ne_zero (Nat.ne_zero_of_lt hsteps)
    obtain ⟨hname, rfl⟩ := List.cons.inj hall
    obtain ⟨mark, e, hmark, -, hrest, hrun⟩ :=
      enumMembers_row hc hname (hrows row List.mem_cons_self) hspells steps value
    obtain rfl := hrest.eq_of_nil
    have hcomma : ¬ mark.isPunctuation "," = true := by
      rw [Token.isPunctuation_iff, hmark]
      decide
    rw [hrun, enumBehind, if_neg hcomma, if_pos (Token.isPunctuation_iff.2 hmark)]
    rfl
  | more row hlists ih =>
    rename_i rest behind
    obtain ⟨hrow, hothers⟩ := List.forall_mem_cons.1 hrows
    rw [List.length_cons] at hsteps
    obtain ⟨steps, rfl⟩ := Nat.exists_eq_add_one_of_ne_zero (Nat.ne_zero_of_lt hsteps)
    obtain ⟨hname, rfl⟩ := List.cons.inj hall
    obtain ⟨mark, e, hmark, he, hrest, hrun⟩ := enumMembers_row hc hname hrow hspells steps value
    obtain ⟨first, behind, e', rfl, hfirst, hbehind⟩ := exists_first hlists hrest
    have hmembers : enumMembers steps (row.value?.getD value + 1) first e'
        = .ok (EnumRow.members (row.value?.getD value + 1) rest, d) :=
      ih (Draws.next.of_ok he hfirst).1 hbehind hothers (Nat.lt_of_succ_lt_succ hsteps) rfl
    rw [hrun, enumBehind, if_pos (Token.isPunctuation_iff.2 hmark), bind_of_ok hfirst,
      bind_of_ok hmembers]
    rfl

/-! ### Declarations -/

/-- What stands between the name of an enum and its rows. -/
def enumBase : Reader Primitive := do
  let _ ← expectPunctuation ":"
  let base ← baseType
  let _ ← expectPunctuation "\x7b"
  return base

def enumRows : Reader (List EnumMember) := do
  enumMembers ((← remaining) + 1) 0 (← next)

theorem enumDefinition_eq : enumDefinition types = freshName types >>= fun name =>
    enumBase >>= fun base => enumRows >>= fun members =>
      pure (.enum ⟨name.text, base, members, name.pos⟩) := by
  unfold enumDefinition enumBase enumRows
  simp only [bind_assoc, pure_bind]

theorem enumDeclaration_definition : enumDeclaration types = enumDefinition types >>=
    fun definition => pure (changeTypes (types.define definition) types) := by
  unfold enumDeclaration enumDefinition
  simp only [bind_assoc, pure_bind]

theorem enumBase_ok_iff {base : Primitive} : enumBase c = .ok (base, d) ↔
    ∃ word, Primitive.ofWord? word = some base ∧ Spells c [.mark ":", .word word, .mark "\x7b"] d := by
  unfold enumBase
  rw [bind_ok_iff]
  constructor
  · rintro ⟨colon, c₁, hcolon, h⟩
    obtain ⟨read, c₂, hbase, h⟩ := bind_ok_iff.1 h
    obtain ⟨opening, c₃, hopening, h⟩ := bind_ok_iff.1 h
    obtain ⟨rfl, rfl⟩ := pure_ok_iff.1 h
    obtain ⟨hnext₁, hcolon⟩ := expectPunctuation_ok_iff.1 hcolon
    obtain ⟨token, word, hnext₂, hword, hbase⟩ := baseType_ok_iff.1 hbase
    obtain ⟨hnext₃, hopening⟩ := expectPunctuation_ok_iff.1 hopening
    have hbrace := Spells.of_next hnext₃ hopening (by decide) (.nil c₃)
    have hbehind := hbrace.of_next hnext₂ hword (by simp [Piece.word])
    exact ⟨word, hbase, hbehind.of_next hnext₁ hcolon (by decide)⟩
  · rintro ⟨word, hbase, hspells⟩
    obtain ⟨colon, c₁, hcolon, hnext₁, hspells⟩ := hspells.exists_next
    obtain ⟨token, c₂, hword, hnext₂, hspells⟩ := hspells.exists_next
    obtain ⟨opening, c₃, hopening, hnext₃, hspells⟩ := hspells.exists_next
    obtain rfl := hspells.eq_of_nil
    refine ⟨colon, c₁, expectPunctuation_ok_iff.2 ⟨hnext₁, hcolon⟩, ?_⟩
    rw [bind_of_ok (baseType_ok_iff.2 ⟨token, word, hnext₂, hword, hbase⟩),
      bind_of_ok (expectPunctuation_ok_iff.2 ⟨hnext₃, hopening⟩)]
    rfl

theorem enumRows_ok_iff {members : List EnumMember} (hc : c.Holds Token.IsNumeral ending) :
    enumRows c = .ok (members, d) ↔ ∃ rows pieces, EnumRow.Lists rows pieces ∧ Spells c pieces d ∧
      (∀ row ∈ rows, row.IsWritten) ∧ members = EnumRow.members 0 rows := by
  have hcount : remaining c = .ok (c.tokens.length, c) := rfl
  unfold enumRows
  rw [bind_of_ok hcount, bind_ok_iff]
  constructor
  · rintro ⟨first, e, hfirst, h⟩
    obtain ⟨rows, pieces, hlists, hspells, hrows, rfl⟩ := enumMembers_ok (Draws.next.of_ok hc hfirst).1 h
    exact ⟨rows, _, hlists, hspells.of_next hfirst rfl hlists.kind_ne, hrows, rfl⟩
  · rintro ⟨rows, pieces, hlists, hspells, hrows, rfl⟩
    have hsteps := Nat.lt_succ_of_lt (hlists.length_lt.trans_le hspells.length_le)
    obtain ⟨first, behind, e, rfl, hfirst, hbehind⟩ := exists_first hlists hspells
    exact ⟨first, e, hfirst,
      enumMembers_of_lists (Draws.next.of_ok hc hfirst).1 hlists hbehind hrows hsteps⟩

section

variable (hname : freshName types c = .ok (name, e)) (he : e.Holds Token.IsNumeral ending)

include hname he

theorem enumDefinition_ok_iff {definition : Definition} :
    enumDefinition types c = .ok (definition, d) ↔ ∃ (block : EnumBlock) (base : Primitive),
      block.IsWritten ∧ Primitive.ofWord? block.base = some base ∧ Spells e block.pieces d ∧
        definition = .enum ⟨name.text, base, EnumRow.members 0 block.rows, name.pos⟩ := by
  rw [enumDefinition_eq, bind_of_ok hname, bind_ok_iff]
  constructor
  · rintro ⟨base, e', hbase, h⟩
    obtain ⟨members, _, hmembers, h⟩ := bind_ok_iff.1 h
    obtain ⟨rfl, rfl⟩ := pure_ok_iff.1 h
    obtain ⟨word, hword, hhead⟩ := enumBase_ok_iff.1 hbase
    obtain ⟨rows, pieces, hlists, hspells, hrows, rfl⟩ := (enumRows_ok_iff (hhead.holds he)).1 hmembers
    obtain ⟨trailed, htrailed, rfl⟩ := EnumRow.lists_iff.1 hlists
    exact ⟨⟨word, rows, trailed⟩, base, ⟨Option.isSome_of_eq_some hword, hrows, htrailed⟩, hword,
      hhead.append hspells, rfl⟩
  · rintro ⟨⟨word, rows, trailed⟩, base, hwritten, hword, hspells, rfl⟩
    change Spells e ([.mark ":", .word word, .mark "\x7b"] ++ _) d at hspells
    obtain ⟨e', hhead, hspells⟩ := hspells.split
    have hlists := EnumRow.lists_iff.2 ⟨trailed, hwritten.trailed, rfl⟩
    have hmembers := (enumRows_ok_iff (hhead.holds he)).2 ⟨rows, _, hlists, hspells, hwritten.rows, rfl⟩
    exact ⟨base, e', enumBase_ok_iff.2 ⟨word, hword, hhead⟩, bind_ok_iff.2 ⟨_, d, hmembers, rfl⟩⟩

theorem enumDeclaration_accepts_iff : (∃ table d, enumDeclaration types c = .ok (table, d)) ↔
    ∃ block : EnumBlock, block.IsWritten ∧ block.pieces <+: solid Token.solid? e.tokens := by
  rw [enumDeclaration_definition]
  constructor
  · rintro ⟨table, d, h⟩
    obtain ⟨definition, _, hdefinition, -⟩ := bind_ok_iff.1 h
    obtain ⟨block, base, hwritten, -, hspells, -⟩ := (enumDefinition_ok_iff hname he).1 hdefinition
    exact ⟨block, hwritten, ⟨_, hspells.solid_tokens.symm⟩⟩
  · rintro ⟨block, hwritten, behind, hbehind⟩
    obtain ⟨base, hbase⟩ := Option.isSome_iff_exists.1 hwritten.base
    obtain ⟨d, hspells⟩ := Spells.of_solid hbehind.symm e.ending
    have hdefinition := (enumDefinition_ok_iff hname he).2 ⟨block, base, hwritten, hbase, hspells, rfl⟩
    exact ⟨_, d, bind_ok_iff.2 ⟨_, d, hdefinition, rfl⟩⟩

end

/-! ### Definitions of a source -/

section

variable {text : String} {definition : Definition}
  (hsuffix : c.tokens <:+ (TokenStream.scan text).tokens)

include hsuffix

theorem freshName_holds (hname : freshName types c = .ok (name, e)) : e.Holds Token.IsNumeral c.ending :=
  ((Draws.freshName types).of_ok (Cursor.holds_isNumeral hsuffix) hname).1

section

variable (hname : freshName types c = .ok (name, e))

include hname

theorem enumDefinition_listed (h : enumDefinition types c = .ok (definition, d)) :
    ∃ enum, definition = .enum enum ∧ enum.name = name.text ∧
      enum.ListedIn (TokenStream.scan text).tokens := by
  obtain ⟨block, base, hwritten, hbase, hspells, rfl⟩ :=
    (enumDefinition_ok_iff hname (freshName_holds hsuffix hname)).1 h
  obtain ⟨hplain, comments, -, hc⟩ := freshName_taken hname
  refine ⟨_, rfl, rfl, block, hwritten, ?_, hbase, EnumRow.numbers_members _⟩
  have hordered := TokenStream.scan_increasing text
  rw [tokensFrom_of_suffix hordered (.trans ⟨comments, hc.symm⟩ hsuffix),
    Outline.solid_cons (Token.solid_of_word (kind_of_isPlainName hplain)), piece_of_isPlainName hplain,
    hspells.solid_tokens]
  exact List.prefix_append (.word name.text :: block.pieces) _

theorem enumDeclaration_listed {table : TypeTable} (hopen : types.Open)
    (h : enumDeclaration types c = .ok (table, d)) : ∃ enum, table = types.grow (.enum enum) ∧
      enum.name = name.text ∧ enum.ListedIn (TokenStream.scan text).tokens := by
  rw [enumDeclaration_eq hopen] at h
  obtain ⟨definition, _, hdefinition, h⟩ := bind_ok_iff.1 h
  obtain ⟨rfl, rfl⟩ := pure_ok_iff.1 h
  obtain ⟨enum, rfl, hlisted⟩ := enumDefinition_listed hsuffix hname hdefinition
  exact ⟨enum, rfl, hlisted⟩

end

end

end Reader

/-- That a definition is listed by some tokens if it is an enum. -/
def Definition.ListedIn (tokens : List Token) : Definition → Prop
  | .enum listed => listed.ListedIn tokens
  | _ => True

/-- That a declaration is listed by some tokens if it is one of an enum. -/
def Reader.Declaration.ListedIn (tokens : List Token) : Declaration → Prop
  | .definition listed => listed.ListedIn tokens
  | _ => True

theorem Reader.tells_listed : Reader.Tells fun tokens declared => declared.ListedIn tokens := by
  refine Tells.of_readers (fun _ _ _ => trivial) (fun hsuffix h => ?_) fun _ _ => trivial
  rcases h with hstruct | henum | hbitfield
  · obtain ⟨name, _, -, h⟩ := bind_ok_iff.1 hstruct
    obtain ⟨members, _, -, h⟩ := bind_ok_iff.1 h
    obtain ⟨rfl, -⟩ := pure_ok_iff.1 h
    trivial
  · obtain ⟨name, _, hname, -⟩ := bind_ok_iff.1 henum
    obtain ⟨enum, rfl, -, hlisted⟩ := enumDefinition_listed hsuffix hname henum
    exact hlisted
  · obtain ⟨name, _, -, h⟩ := bind_ok_iff.1 hbitfield
    obtain ⟨_, _, -, h⟩ := bind_ok_iff.1 h
    obtain ⟨base, _, -, h⟩ := bind_ok_iff.1 h
    obtain ⟨_, _, -, h⟩ := bind_ok_iff.1 h
    obtain ⟨_, _, -, h⟩ := bind_ok_iff.1 h
    obtain ⟨members, _, -, h⟩ := bind_ok_iff.1 h
    obtain ⟨rfl, -⟩ := pure_ok_iff.1 h
    trivial

/-- Enums have the members of their rows. In a compiled schema every enum is listed by the source that
declares it: its members have the names of the rows in their order, and each has the last value that is
given up to it plus its distance from there, or its index if no value is given. A declaration with a free
name adds such an enum to the types, and is accepted exactly where the pieces behind the name begin with a
block of rows, whatever comments are among them. The rows have plain names and numerals, of which the
decimal ones are within the limit of digits. -/
theorem enums_follow_rows :
    (∀ (fs : FileSystem) (root : Root) (schema : Schema), root.compile fs = .ok schema →
      ∀ enum, .enum enum ∈ schema.types.definitions → ∃ directory text, root.LeadsTo fs directory text ∧
        enum.name ∈ declaredNames (TokenStream.scan text).tokens ∧
          enum.ListedIn (TokenStream.scan text).tokens) ∧
    ∀ (text : String) (types : TypeTable) (c e : Cursor) (name : Token),
      c.tokens <:+ (TokenStream.scan text).tokens → Reader.freshName types c = .ok (name, e) →
        (types.Open → ∀ table d, Reader.enumDeclaration types c = .ok (table, d) →
          ∃ enum, table = types.grow (.enum enum) ∧ enum.name = name.text ∧
            enum.ListedIn (TokenStream.scan text).tokens) ∧
        ((∃ table d, Reader.enumDeclaration types c = .ok (table, d)) ↔
          ∃ block : EnumBlock, block.IsWritten ∧ block.pieces <+: solid Token.solid? e.tokens) := by
  constructor
  · intro fs root schema hcompile enum hmem
    exact (Root.compile_tells Reader.tells_listed hcompile).2 (.enum enum) hmem
  · intro text types c e name hsuffix hname
    constructor
    · intro hopen table d hdeclared
      exact Reader.enumDeclaration_listed hsuffix hname hopen hdeclared
    · exact Reader.enumDeclaration_accepts_iff hname (Reader.freshName_holds hsuffix hname)

/-- An enum with values of all kinds, comments and a comma behind the last row. -/
def Root.numbered : Root :=
  .source "enum E:byte\x7bA, //\n B=0x10,C,D=/**/-2,F,\x7d" none

/-- What the text compiles to. -/
def Schema.numbered : Schema where
  types := {
    definitions := [.enum ⟨"E", .byte, [⟨"A", 0⟩, ⟨"B", 16⟩, ⟨"C", 17⟩, ⟨"D", -2⟩, ⟨"F", -1⟩], ⟨1, 6⟩⟩]
    frozen := true }

theorem enums_follow_rows_numbered :
    Root.numbered.compile {} = .ok Schema.numbered ∧
    (∀ enum, .enum enum ∈ Schema.numbered.types.definitions → ∃ directory text,
      Root.numbered.LeadsTo {} directory text ∧ enum.name ∈ declaredNames (TokenStream.scan text).tokens ∧
        enum.ListedIn (TokenStream.scan text).tokens) ∧
    ∃ enum d, Reader.enumDeclaration {} (.scan "E:byte\x7bA=-1,\x7d")
        = .ok (TypeTable.grow {} (.enum enum), d) ∧ enum.name = "E" ∧
          enum.ListedIn (TokenStream.scan "E:byte\x7bA=-1,\x7d").tokens := by
  have hcompile : Root.numbered.compile {} = .ok Schema.numbered := by
    cbv
  obtain ⟨hlisted, hdeclares⟩ := enums_follow_rows
  have hname : Reader.freshName {} (.scan "E:byte\x7bA=-1,\x7d")
      = .ok (⟨.word, "E", ⟨1, 1⟩⟩,
        ⟨(TokenStream.scan "E:byte\x7bA=-1,\x7d").tokens.tail, .finished ⟨1, 14⟩⟩) := by
    cbv
  let block : EnumBlock := ⟨"byte", [⟨"A", some ⟨true, "1"⟩⟩], true⟩
  have hrow : EnumRow.IsWritten ⟨"A", some ⟨true, "1"⟩⟩ := ⟨by decide, by rintro _ ⟨⟩; decide⟩
  have hwritten : block.IsWritten :=
    ⟨by decide +kernel, List.forall_mem_singleton.2 hrow, fun _ => List.cons_ne_nil _ _⟩
  have hblock :
      block.pieces <+: solid Token.solid? (TokenStream.scan "E:byte\x7bA=-1,\x7d").tokens.tail := by
    decide +kernel
  obtain ⟨hgrows, haccepts⟩ := hdeclares _ {} _ _ _ (List.suffix_refl _) hname
  obtain ⟨table, d, hdeclared⟩ := haccepts.2 ⟨block, hwritten, hblock⟩
  obtain ⟨enum, rfl, hnamed⟩ := hgrows ⟨rfl, rfl⟩ table d hdeclared
  exact ⟨hcompile, hlisted _ _ _ hcompile, enum, d, hdeclared, hnamed⟩

end BinarySchema
