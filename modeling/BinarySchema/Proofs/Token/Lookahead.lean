import BinarySchema.Proofs.Token.Lexemes

/-!
# How far a lexeme looks ahead

The lexeme at the head of a text is decided by its own characters and by a few behind them: whether a
word or a numeral goes on, and whether an equals sign or another mark of a comment follows. So the text
behind a lexeme can be replaced by another one that looks alike, and the lexeme stays.

Texts look alike if they are the same up to a place where both have a character that no lexeme goes on
with. All that matters to a lexeme is that nothing goes on with it in the one text that does not in the
other (`Ahead`), so it also stays in front of a text that ends earlier. Blanks and comments are not
covered: they end where something else begins, and a scan passes over blank space a character at a time as
well as in one piece (`scanAt_blanks`).
-/

namespace BinarySchema

namespace Lexeme

variable {c : Char} {chars tail rest other : List Char} {kind : TokenKind}

/-! ### Lexemes tile their text -/

theorem splitWord_append (chars : List Char) : (splitWord chars).1 ++ (splitWord chars).2 = chars := by
  fun_induction splitWord chars with
  | case4 c d rest hc word left hsplit ih =>
    rw [hsplit] at ih
    exact congrArg (c :: ·) ih
  | case1 | case2 | case3 | case5 => rfl

theorem splitComment_append {body : List Char} (h : splitComment chars = some (body, rest)) :
    body ++ rest = chars := by
  induction chars generalizing body with
  | nil => cases h
  | cons c more ih =>
    unfold splitComment at h
    split at h
    · cases h
    · cases h
      rename_i heq
      exact heq.symm
    · rename_i heq
      cases heq
      obtain ⟨⟨inner, left⟩, hinner, hbody⟩ := Option.map_eq_some_iff.1 h
      cases hbody
      exact congrArg (c :: ·) (ih hinner)

theorem splitString_append {body : List Char} (h : splitString chars = some (body, rest)) :
    body ++ rest = chars := by
  induction chars generalizing body with
  | nil => cases h
  | cons c more ih =>
    unfold splitString at h
    split at h
    · rename_i hquote
      cases h
      rw [hquote]
      rfl
    split at h
    · cases h
    · obtain ⟨⟨inner, left⟩, hinner, hbody⟩ := Option.map_eq_some_iff.1 h
      cases hbody
      exact congrArg (c :: ·) (ih hinner)

/-- That a lexeme begins with a character and leaves what it does not take. -/
def Tiles (lexeme : Lexeme) (c : Char) (chars : List Char) : Prop :=
  ∃ tail, lexeme.text = c :: tail ∧ tail ++ lexeme.rest = chars

theorem tiles_run (kind : LexemeKind) (c : Char) (front : List Char) (member : Char → Bool)
    (rest : List Char) : (run kind (c :: front) member rest).Tiles c (front ++ rest) := by
  refine ⟨front ++ rest.takeWhile member, rfl, ?_⟩
  rw [run, List.append_assoc, List.takeWhile_append_dropWhile]

theorem tiles_single (kind : LexemeKind) (c : Char) (rest : List Char) :
    Tiles ⟨kind, [c], rest⟩ c rest :=
  ⟨[], rfl, rfl⟩

theorem tiles_numberFrom (c : Char) (rest : List Char) : (numberFrom c rest).Tiles c rest := by
  have hdecimal := tiles_run (.token .number) c [] Char.isDigit rest
  unfold numberFrom
  dsimp only
  split
  · rename_i x h more
    split
    · exact tiles_run (.token .number) c [x, h] Text.isHexDigit more
    · exact hdecimal
  · exact hdecimal

theorem tiles_slashFrom (rest : List Char) : (slashFrom rest).Tiles '/' rest := by
  unfold slashFrom
  split
  · split
    · rename_i more _ body left hbody
      exact ⟨'*' :: body, rfl, congrArg ('*' :: ·) (splitComment_append hbody)⟩
    · exact ⟨['*'], rfl, rfl⟩
  · rename_i more
    exact tiles_run (.token .comment) '/' ['/'] (· != '\n') more
  · exact tiles_single _ _ _

theorem tiles_comparisonFrom (c : Char) (rest : List Char) : (comparisonFrom c rest).Tiles c rest := by
  unfold comparisonFrom
  split
  · exact ⟨['='], rfl, rfl⟩
  · exact tiles_single _ _ _

theorem tiles_word (kind : LexemeKind) (c : Char) (front chars : List Char) :
    Tiles ⟨kind, c :: front ++ (splitWord chars).1, (splitWord chars).2⟩ c (front ++ chars) := by
  refine ⟨front ++ (splitWord chars).1, rfl, ?_⟩
  rw [List.append_assoc, splitWord_append]

theorem tiles_ofHead (c : Char) (rest : List Char) : (ofHead c rest).Tiles c rest := by
  unfold ofHead
  dsimp only
  split
  · exact tiles_run .blank c [] isSourceBlank rest
  split
  · exact tiles_numberFrom c rest
  split
  · exact tiles_word (.token .word) c [] rest
  split
  case h_1 => exact tiles_slashFrom rest
  case h_2 =>
    split
    · rename_i d more
      split
      · exact tiles_word (.token .word) '@' [d] more
      · exact tiles_single _ _ _
    · exact tiles_single _ _ _
  case h_3 =>
    split
    · rename_i body left hbody
      exact ⟨body, rfl, splitString_append hbody⟩
    · exact tiles_single _ _ _
  case h_4 | h_5 | h_6 => exact tiles_comparisonFrom _ rest
  all_goals exact tiles_single _ _ _

theorem exists_ofHead (c : Char) (chars : List Char) : ∃ kind tail rest, chars = tail ++ rest ∧
    ofHead c (tail ++ rest) = ⟨kind, c :: tail, rest⟩ := by
  obtain ⟨tail, htext, hrest⟩ := tiles_ofHead c chars
  refine ⟨(ofHead c chars).kind, tail, (ofHead c chars).rest, hrest.symm, ?_⟩
  rw [hrest, ← htext]

/-- Texts from their end, a lexeme at a time. -/
theorem induction {motive : List Char → Prop} (nil : motive [])
    (lexeme : ∀ kind c tail rest, ofHead c (tail ++ rest) = ⟨kind, c :: tail, rest⟩ → motive rest →
      motive (c :: (tail ++ rest))) (chars : List Char) : motive chars := by
  generalize hlength : chars.length = length
  induction length using Nat.strongRecOn generalizing chars with
  | ind length ih =>
    cases chars with
    | nil => exact nil
    | cons c chars =>
      obtain ⟨kind, tail, rest, rfl, hhead⟩ := exists_ofHead c chars
      have hless : rest.length < length := by
        rw [← hlength, List.length_cons, List.length_append]
        omega
      exact lexeme kind c tail rest hhead (ih rest.length hless rest rfl)

/-- The lexemes of a text, up to its end or to a fault. -/
def lexemesFrom : (steps : Nat) → List Char → List Lexeme
  | steps + 1, c :: rest =>
    let lexeme := ofHead c rest
    match lexeme.kind with
    | .fault _ => [lexeme]
    | _ => lexeme :: lexemesFrom steps lexeme.rest
  | _, _ => []

def lexemes (chars : List Char) : List Lexeme :=
  lexemesFrom chars.length chars

theorem lexemesFrom_of_le {steps : Nat} (h : chars.length ≤ steps) :
    lexemesFrom steps chars = lexemes chars := by
  induction chars using induction generalizing steps with
  | nil => cases steps <;> rfl
  | lexeme kind c tail rest hhead ih =>
    rw [List.length_cons, List.length_append] at h
    obtain ⟨steps, rfl⟩ : ∃ fewer, steps = fewer + 1 := ⟨steps - 1, by omega⟩
    have hsteps : rest.length ≤ steps := by omega
    have hrest : rest.length ≤ (tail ++ rest).length := by
      rw [List.length_append]
      omega
    rw [lexemes, List.length_cons, lexemesFrom, lexemesFrom, hhead]
    dsimp only
    rw [ih hsteps, ih hrest]

theorem lexemes_cons {kind : LexemeKind} (h : ofHead c (tail ++ rest) = ⟨kind, c :: tail, rest⟩)
    (hkind : ∀ fault, kind ≠ .fault fault) :
    lexemes (c :: (tail ++ rest)) = ⟨kind, c :: tail, rest⟩ :: lexemes rest := by
  have hrest : rest.length ≤ (tail ++ rest).length := by
    rw [List.length_append]
    omega
  rw [lexemes, List.length_cons, lexemesFrom, h]
  dsimp only
  rw [lexemesFrom_of_le hrest]
  split
  · exact absurd rfl (hkind _)
  · rfl

theorem lexemes_fault {fault : LexicalFault}
    (h : ofHead c (tail ++ rest) = ⟨.fault fault, c :: tail, rest⟩) :
    lexemes (c :: (tail ++ rest)) = [⟨.fault fault, c :: tail, rest⟩] := by
  rw [lexemes, List.length_cons, lexemesFrom, h]

/-! ### Texts that look alike -/

/-- Whether a character goes on with no word, numeral or operator. -/
def Stops (c : Char) : Prop :=
  isIdentifierChar c = false ∧ c ≠ '.' ∧ c ≠ '='

instance (c : Char) : Decidable (Stops c) :=
  inferInstanceAs (Decidable (_ ∧ _))

/-- That texts are the same up to a place where both have a character that stops lexemes. -/
inductive Alike : List Char → List Char → Prop
  | same (chars : List Char) : Alike chars chars
  | cons (c : Char) {left right : List Char} : Alike left right → Alike (c :: left) (c :: right)
  | stop {c d : Char} (left right : List Char) : Stops c → Stops d → d ≠ '/' → d ≠ '*' →
      Alike (c :: left) (d :: right)

namespace Alike

theorem cons_of {d : Char} (h : Alike rest (d :: other)) (hd : ¬ Stops d) :
    ∃ more, rest = d :: more ∧ Alike more other := by
  cases h with
  | same => exact ⟨_, rfl, .same _⟩
  | cons _ hmore => exact ⟨_, rfl, hmore⟩
  | stop _ _ _ hstops => exact absurd hstops hd

theorem append (front : List Char) (h : Alike rest other) : Alike (front ++ rest) (front ++ other) := by
  induction front with
  | nil => exact h
  | cons c front ih => exact .cons c ih

end Alike

/-- That what goes on with a lexeme at the head of a text stands at the head of another text as well. It
is one character, or two that belong together. -/
structure Ahead (rest other : List Char) : Prop where
  head : ∀ d ∈ other.head?, ¬ Stops d ∨ d = '/' ∨ d = '*' → ∃ more, rest = d :: more
  pair : ∀ d e more, other = d :: e :: more → ¬ Stops d → ¬ Stops e →
    ∃ before, rest = d :: e :: before

theorem Alike.ahead (h : Alike rest other) : Ahead rest other where
  head d hd hgoes := by
    cases h with
    | same =>
      obtain ⟨more, rfl⟩ := List.head?_eq_some_iff.1 hd
      exact ⟨more, rfl⟩
    | cons =>
      cases hd
      exact ⟨_, rfl⟩
    | stop _ _ _ hstops hslash hstar =>
      cases hd
      exact (hgoes.elim (absurd hstops) (not_or.2 ⟨hslash, hstar⟩)).elim
  pair d e more hother hd he := by
    subst hother
    obtain ⟨behind, rfl, hbehind⟩ := h.cons_of hd
    obtain ⟨before, rfl, -⟩ := hbehind.cons_of he
    exact ⟨before, rfl⟩

namespace Ahead

/-- Nothing goes on in a text that ends earlier. -/
theorem of_append (front back : List Char) : Ahead (front ++ back) front where
  head d hd _ := by
    obtain ⟨more, rfl⟩ := List.head?_eq_some_iff.1 hd
    exact ⟨more ++ back, rfl⟩
  pair d e more hfront _ _ := by
    subst hfront
    exact ⟨more ++ back, rfl⟩

theorem append (front : List Char) (h : Ahead rest other) : Ahead (front ++ rest) (front ++ other) := by
  match front with
  | [] => exact h
  | [c] =>
    refine ⟨fun d hd _ => ?_, fun d e more hpair _ he => ?_⟩
    · cases hd
      exact ⟨rest, rfl⟩
    · obtain ⟨rfl, rfl⟩ := List.cons.inj hpair
      obtain ⟨before, rfl⟩ := h.head e rfl (.inl he)
      exact ⟨before, rfl⟩
  | c :: c' :: front =>
    refine ⟨fun d hd _ => ?_, fun d e more hpair _ _ => ?_⟩
    · cases hd
      exact ⟨_, rfl⟩
    · obtain ⟨rfl, hrest⟩ := List.cons.inj hpair
      obtain ⟨rfl, -⟩ := List.cons.inj hrest
      exact ⟨front ++ rest, rfl⟩

end Ahead

theorem not_stops_of_identifierChar (h : isIdentifierChar c = true) : ¬ Stops c := by
  intro hstops
  rw [hstops.1] at h
  cases h

theorem identifierChar_of_digit (h : c.isDigit = true) : isIdentifierChar c = true := by
  simp [isIdentifierChar, Char.isAlphanum, h]

theorem identifierChar_of_alpha (h : c.isAlpha = true) : isIdentifierChar c = true := by
  simp [isIdentifierChar, Char.isAlphanum, h]

theorem identifierChar_of_hexDigit (h : Text.isHexDigit c = true) : isIdentifierChar c = true := by
  simp only [Text.isHexDigit, Text.hexValue?] at h
  have hdigit (hc : '0' ≤ c ∧ c ≤ '9') : c.isDigit = true :=
    Bool.and_eq_true_iff.2 ⟨decide_eq_true hc.1, decide_eq_true hc.2⟩
  have hlower (hc : 'a' ≤ c ∧ c ≤ 'f') : c.isLower = true :=
    Bool.and_eq_true_iff.2 ⟨decide_eq_true hc.1, decide_eq_true (Char.le_trans hc.2 (by decide))⟩
  have hupper (hc : 'A' ≤ c ∧ c ≤ 'F') : c.isUpper = true :=
    decide_eq_true ⟨hc.1, Char.le_trans hc.2 (by decide)⟩
  split at h
  · exact identifierChar_of_digit (hdigit ‹_›)
  split at h
  · exact identifierChar_of_alpha (Bool.or_eq_true_iff.2 (.inr (hlower ‹_›)))
  split at h
  · exact identifierChar_of_alpha (Bool.or_eq_true_iff.2 (.inl (hupper ‹_›)))
  · cases h

theorem run_ahead {member : Char → Bool} (hmember : ∀ d, member d = true → ¬ Stops d)
    (h : Ahead rest other) (htake : (tail ++ rest).takeWhile member = tail)
    (hdrop : (tail ++ rest).dropWhile member = rest) :
    (tail ++ other).takeWhile member = tail ∧ (tail ++ other).dropWhile member = other := by
  have hinside : ∀ d ∈ tail, member d = true := by
    rw [← htake]
    exact List.all_eq_true.1 List.all_takeWhile
  have hends (d : Char) (more : List Char) (hother : other = d :: more) : ¬ member d = true := by
    intro hin
    subst hother
    obtain ⟨before, rfl⟩ := h.head d rfl (.inl (hmember d hin))
    have hfalse := List.head?_dropWhile_not member (tail ++ d :: before)
    rw [hdrop] at hfalse
    change member d = false at hfalse
    rw [hin] at hfalse
    cases hfalse
  rw [List.takeWhile_append_of_pos hinside, List.dropWhile_append_of_pos hinside]
  cases other with
  | nil => exact ⟨List.append_nil _, rfl⟩
  | cons d more =>
    have hd := hends d more rfl
    rw [List.takeWhile_cons_of_neg hd, List.dropWhile_cons_of_neg hd]
    exact ⟨List.append_nil _, rfl⟩

/-! ### Words -/

/-- Whether a word in front of a text goes on with it. -/
def GoesOn : List Char → Prop
  | [] => False
  | c :: rest => isIdentifierChar c = true ∨
      c = '.' ∧ ∃ d ∈ rest.head?, isIdentifierStart d = true

theorem splitWord_of_not_goesOn (h : ¬ GoesOn rest) : splitWord rest = ([], rest) := by
  cases rest with
  | nil => rfl
  | cons c more =>
    obtain ⟨hchar, hpoint⟩ := not_or.1 h
    cases more with
    | nil => rw [splitWord, if_neg hchar]
    | cons d more =>
      rw [splitWord, if_neg]
      rw [Bool.or_eq_true, not_or]
      refine ⟨hchar, fun hgoes => hpoint ?_⟩
      obtain ⟨hc, hd⟩ := Bool.and_eq_true_iff.1 hgoes
      exact ⟨of_decide_eq_true hc, d, rfl, hd⟩

theorem not_goesOn_splitWord (chars : List Char) : ¬ GoesOn (splitWord chars).2 := by
  fun_induction splitWord chars with
  | case1 => exact id
  | case2 => exact id
  | case3 c hc =>
    intro hgoes
    rcases hgoes with hchar | ⟨-, d, hd, -⟩
    · exact hc hchar
    · cases hd
  | case4 c d rest hc word left hsplit ih =>
    rw [hsplit] at ih
    exact ih
  | case5 c d rest hc =>
    intro hgoes
    rw [Bool.or_eq_true, not_or] at hc
    rcases hgoes with hchar | ⟨rfl, _, ⟨⟩, hstart⟩
    · exact hc.1 hchar
    · exact hc.2 hstart

theorem splitWord_of_continues (h : Piece.Continues tail) (hrest : ¬ GoesOn rest) :
    splitWord (tail ++ rest) = (tail, rest) := by
  induction tail with
  | nil => exact splitWord_of_not_goesOn hrest
  | cons c tail ih =>
    obtain ⟨hc, htail⟩ := h
    have hsplit := ih htail
    cases tail with
    | nil =>
      have hchar : isIdentifierChar c = true := by simpa using hc
      cases rest with
      | nil => rw [List.append_nil, splitWord, if_pos hchar]
      | cons d more =>
        rw [List.nil_append] at hsplit
        change splitWord (c :: d :: more) = _
        rw [splitWord, hchar, Bool.true_or, if_pos rfl, hsplit]
    | cons d tail =>
      have hgoes : (isIdentifierChar c || (c = '.' && isIdentifierStart d)) = true := by
        rcases hc with hchar | ⟨rfl, _, ⟨⟩, hstart⟩
        · rw [hchar, Bool.true_or]
        · rw [hstart]
          rfl
      change splitWord (c :: d :: (tail ++ rest)) = _
      rw [List.cons_append] at hsplit
      rw [splitWord, hgoes, if_pos rfl, hsplit]

theorem Ahead.goesOn (h : Ahead rest other) (hgoes : GoesOn other) : GoesOn rest := by
  cases other with
  | nil => exact hgoes.elim
  | cons c more =>
    rcases hgoes with hchar | ⟨rfl, d, hd, hstart⟩
    · obtain ⟨before, rfl⟩ := h.head c rfl (.inl (not_stops_of_identifierChar hchar))
      exact .inl hchar
    · obtain ⟨behind, rfl⟩ := List.head?_eq_some_iff.1 hd
      have hd := not_stops_of_identifierChar (Piece.identifierChar_of_start hstart)
      obtain ⟨before, rfl⟩ := h.pair '.' d behind rfl (by decide) hd
      exact .inr ⟨rfl, d, rfl, hstart⟩

theorem splitWord_ahead (h : Ahead rest other) (hsplit : splitWord (tail ++ rest) = (tail, rest)) :
    splitWord (tail ++ other) = (tail, other) := by
  have hcontinues := Piece.continues_splitWord (tail ++ rest)
  have hends := not_goesOn_splitWord (tail ++ rest)
  rw [hsplit] at hcontinues hends
  exact splitWord_of_continues hcontinues fun hgoes => hends (h.goesOn hgoes)

/-! ### Numerals -/

/-- Whether a digit in front of a text begins a hexadecimal numeral. -/
def IsHex (c : Char) : List Char → Prop
  | x :: h :: _ => (c = '0' && (x = 'x' || x = 'X') && Text.isHexDigit h) = true
  | _ => False

theorem numberFrom_of_hex {x h : Char} {more : List Char} (hhex : IsHex c (x :: h :: more)) :
    numberFrom c (x :: h :: more) = run (.token .number) [c, x, h] Text.isHexDigit more :=
  if_pos hhex

theorem numberFrom_of_decimal (h : ¬ IsHex c rest) :
    numberFrom c rest = run (.token .number) [c] Char.isDigit rest := by
  unfold numberFrom
  dsimp only
  split
  · exact if_neg h
  · rfl

theorem exists_of_hex (hhex : IsHex c (tail ++ rest))
    (hhead : numberFrom c (tail ++ rest) = ⟨.token kind, c :: tail, rest⟩) :
    ∃ x h more, tail = x :: h :: more := by
  cases hchars : tail ++ rest with
  | nil =>
    rw [hchars] at hhex
    exact hhex.elim
  | cons x behind =>
    cases behind with
    | nil =>
      rw [hchars] at hhex
      exact hhex.elim
    | cons h more =>
      rw [hchars] at hhex hhead
      rw [numberFrom_of_hex hhex] at hhead
      have htext := (Lexeme.mk.inj hhead).2.1
      exact ⟨x, h, more.takeWhile Text.isHexDigit, (List.cons.inj htext).2.symm⟩

theorem Ahead.isHex (h : Ahead rest other) (hhex : IsHex c other) : IsHex c rest := by
  match other, hhex with
  | x :: digit :: more, hhex =>
    have hchars := hhex
    simp only [IsHex, Bool.and_eq_true, Bool.or_eq_true, decide_eq_true_eq] at hchars
    have hx : ¬ Stops x := by rcases hchars.1.2 with rfl | rfl <;> decide
    have hdigit := not_stops_of_identifierChar (identifierChar_of_hexDigit hchars.2)
    obtain ⟨before, rfl⟩ := h.pair x digit more rfl hx hdigit
    exact hhex

theorem numberFrom_ahead (h : Ahead rest other)
    (hhead : numberFrom c (tail ++ rest) = ⟨.token kind, c :: tail, rest⟩) :
    numberFrom c (tail ++ other) = ⟨.token kind, c :: tail, other⟩ := by
  by_cases hhex : IsHex c (tail ++ rest)
  · obtain ⟨x, digit, more, rfl⟩ := exists_of_hex hhex hhead
    have hfront (behind : List Char) : numberFrom c (x :: digit :: more ++ behind)
        = run (.token .number) [c, x, digit] Text.isHexDigit (more ++ behind) :=
      numberFrom_of_hex hhex
    rw [hfront] at hhead ⊢
    obtain ⟨hkind, htext, hrest⟩ := Lexeme.mk.inj hhead
    have hmember (d : Char) (hd : Text.isHexDigit d = true) : ¬ Stops d :=
      not_stops_of_identifierChar (identifierChar_of_hexDigit hd)
    obtain ⟨htake, hdrop⟩ := run_ahead hmember h (by simpa using htext) hrest
    rw [run, htake, hdrop, hkind]
    rfl
  · have hdecimal : ¬ IsHex c (tail ++ other) := fun hother =>
      hhex ((h.append tail).isHex hother)
    rw [numberFrom_of_decimal hhex] at hhead
    rw [numberFrom_of_decimal hdecimal]
    obtain ⟨hkind, htext, hrest⟩ := Lexeme.mk.inj hhead
    have hmember (d : Char) (hd : d.isDigit = true) : ¬ Stops d :=
      not_stops_of_identifierChar (identifierChar_of_digit hd)
    obtain ⟨htake, hdrop⟩ := run_ahead hmember h (by simpa using htext) hrest
    rw [run, htake, hdrop, hkind]
    rfl

/-! ### Marks -/

/-- A string is closed wherever it stands. -/
theorem splitString_alike (other : List Char) (h : splitString (tail ++ rest) = some (tail, rest)) :
    splitString (tail ++ other) = some (tail, other) := by
  induction tail with
  | nil =>
    rw [List.nil_append] at h
    unfold splitString at h
    split at h
    · cases h
    split at h
    · cases h
    split at h
    · cases h
    · obtain ⟨_, -, hbody⟩ := Option.map_eq_some_iff.1 h
      cases hbody
  | cons c tail ih =>
    rw [List.cons_append, splitString] at h ⊢
    split
    · rename_i hquote
      rw [if_pos hquote] at h
      obtain ⟨htext, -⟩ := Prod.mk.inj (Option.some.inj h)
      obtain ⟨rfl, rfl⟩ := List.cons.inj htext
      rfl
    · rename_i hquote
      rw [if_neg hquote] at h
      split
      · rename_i hline
        rw [if_pos hline] at h
        cases h
      · rename_i hline
        rw [if_neg hline] at h
        obtain ⟨⟨body, left⟩, hbody, hsame⟩ := Option.map_eq_some_iff.1 h
        cases hsame
        rw [ih hbody]
        rfl

theorem splitComment_ne_nil {body : List Char} (h : splitComment chars = some (body, rest)) :
    body ≠ [] := by
  unfold splitComment at h
  split at h
  · cases h
  · cases h
    exact List.cons_ne_nil _ _
  · obtain ⟨_, -, hbody⟩ := Option.map_eq_some_iff.1 h
    cases hbody
    exact List.cons_ne_nil _ _

/-- A block comment is closed wherever it stands. -/
theorem splitComment_alike (other : List Char)
    (h : splitComment (tail ++ rest) = some (tail, rest)) :
    splitComment (tail ++ other) = some (tail, other) := by
  induction tail with
  | nil => exact absurd rfl (splitComment_ne_nil h)
  | cons c tail ih =>
    rw [List.cons_append] at h ⊢
    unfold splitComment at h
    split at h
    · cases h
    · rename_i heq
      obtain ⟨rfl, hslash⟩ := List.cons.inj heq
      obtain ⟨htext, rfl⟩ := Prod.mk.inj (Option.some.inj h)
      obtain rfl : ['/'] = tail := (List.cons.inj htext).2
      rfl
    · rename_i hclose heq
      obtain ⟨rfl, rfl⟩ := List.cons.inj heq
      obtain ⟨⟨body, left⟩, hbody, hsame⟩ := Option.map_eq_some_iff.1 h
      cases hsame
      have hrest := ih hbody
      rw [splitComment, hrest]
      · rfl
      · intro more hstar hmore
        cases tail with
        | nil => exact absurd rfl (splitComment_ne_nil hbody)
        | cons d tail =>
          obtain ⟨rfl, -⟩ := List.cons.inj hmore
          exact hclose _ hstar rfl

theorem slashFrom_ahead (h : Ahead rest other) (hkind : kind ≠ .comment)
    (hhead : slashFrom (tail ++ rest) = ⟨.token kind, '/' :: tail, rest⟩) :
    slashFrom (tail ++ other) = ⟨.token kind, '/' :: tail, other⟩ := by
  unfold slashFrom at hhead
  split at hhead
  · split at hhead
    · exact absurd (LexemeKind.token.inj (Lexeme.mk.inj hhead).1).symm hkind
    · cases (Lexeme.mk.inj hhead).1
  · exact absurd (LexemeKind.token.inj (Lexeme.mk.inj hhead).1).symm hkind
  · rename_i hstar hslash
    obtain ⟨hoperator, htext, -⟩ := Lexeme.mk.inj hhead
    obtain rfl : [] = tail := (List.cons.inj htext).2
    rw [← hoperator]
    change slashFrom other = _
    unfold slashFrom
    split
    · obtain ⟨before, rfl⟩ := h.head '*' rfl (.inr (.inr rfl))
      exact absurd rfl (hstar before)
    · obtain ⟨before, rfl⟩ := h.head '/' rfl (.inr (.inl rfl))
      exact absurd rfl (hslash before)
    · rfl

theorem comparisonFrom_ahead (h : Ahead rest other)
    (hhead : comparisonFrom c (tail ++ rest) = ⟨.token kind, c :: tail, rest⟩) :
    comparisonFrom c (tail ++ other) = ⟨.token kind, c :: tail, other⟩ := by
  unfold comparisonFrom at hhead
  split at hhead
  · obtain ⟨hoperator, htext, -⟩ := Lexeme.mk.inj hhead
    obtain rfl : ['='] = tail := (List.cons.inj htext).2
    rw [← hoperator]
    rfl
  · rename_i hequals
    obtain ⟨hoperator, htext, -⟩ := Lexeme.mk.inj hhead
    obtain rfl : [] = tail := (List.cons.inj htext).2
    rw [← hoperator, List.nil_append]
    unfold comparisonFrom
    split
    · obtain ⟨before, rfl⟩ := h.head '=' rfl (.inl (by decide))
      exact absurd rfl (hequals before)
    · rfl

/-- A lexeme that is no blank and no comment stays in front of a text in which nothing goes on with it. -/
theorem ofHead_ahead (h : Ahead rest other) (hkind : kind ≠ .comment)
    (hhead : ofHead c (tail ++ rest) = ⟨.token kind, c :: tail, rest⟩) :
    ofHead c (tail ++ other) = ⟨.token kind, c :: tail, other⟩ := by
  unfold ofHead at hhead ⊢
  dsimp only at hhead ⊢
  by_cases hblank : isSourceBlank c = true
  · rw [if_pos hblank] at hhead
    cases (Lexeme.mk.inj hhead).1
  rw [if_neg hblank] at hhead ⊢
  by_cases hdigit : c.isDigit = true
  · rw [if_pos hdigit] at hhead ⊢
    exact numberFrom_ahead h hhead
  rw [if_neg hdigit] at hhead ⊢
  by_cases hstart : isIdentifierStart c = true
  · rw [if_pos hstart] at hhead ⊢
    obtain ⟨hword, htext, hrest⟩ := Lexeme.mk.inj hhead
    have hsplit : splitWord (tail ++ rest) = (tail, rest) :=
      Prod.ext (List.cons.inj htext).2 hrest
    rw [splitWord_ahead h hsplit, hword]
  rw [if_neg hstart] at hhead ⊢
  split at hhead
  case h_1 => exact slashFrom_ahead h hkind hhead
  case h_2 =>
    split at hhead
    · rename_i d more hmore
      split at hhead
      · rename_i hd
        obtain ⟨hword, htext, hrest⟩ := Lexeme.mk.inj hhead
        obtain rfl : d :: (splitWord more).1 = tail := (List.cons.inj htext).2
        have hsplit : splitWord ((splitWord more).1 ++ rest) = ((splitWord more).1, rest) := by
          rw [← hrest, splitWord_append]
        have hword' := splitWord_ahead h hsplit
        dsimp only [List.cons_append]
        rw [if_pos hd, hword', hword]
      · cases (Lexeme.mk.inj hhead).1
    · cases (Lexeme.mk.inj hhead).1
  case h_3 =>
    split at hhead
    · rename_i body left hbody
      obtain ⟨hstring, htext, rfl⟩ := Lexeme.mk.inj hhead
      obtain rfl : body = tail := (List.cons.inj htext).2
      rw [splitString_alike other hbody, ← hstring]
    · cases (Lexeme.mk.inj hhead).1
  case h_4 | h_5 | h_6 => exact comparisonFrom_ahead h hhead
  case h_20 => cases (Lexeme.mk.inj hhead).1
  all_goals
    obtain ⟨hmark, htext, -⟩ := Lexeme.mk.inj hhead
    obtain rfl : [] = tail := (List.cons.inj htext).2
    rw [← hmark]
    rfl

end Lexeme

/-! ### Blanks and comments -/

namespace Lexeme

variable {c : Char} {tail rest other : List Char}

/-- A blank lexeme is blank all through. -/
theorem isSourceBlank_of_blank (h : ofHead c (tail ++ rest) = ⟨.blank, c :: tail, rest⟩) :
    ∀ d ∈ c :: tail, isSourceBlank d = true := by
  by_cases hblank : isSourceBlank c = true
  · have hrun : ofHead c (tail ++ rest) = run .blank [c] isSourceBlank (tail ++ rest) := if_pos hblank
    rw [hrun] at h
    have htail := (List.cons.inj (Lexeme.mk.inj h).2.1).2
    refine List.forall_mem_cons.2 ⟨hblank, ?_⟩
    rw [← htail]
    exact List.all_eq_true.1 List.all_takeWhile
  · unfold ofHead numberFrom slashFrom comparisonFrom at h
    rw [if_neg hblank] at h
    dsimp only at h
    repeat' split at h
    all_goals cases (Lexeme.mk.inj h).1

theorem eq_slash_of_comment (h : ofHead c rest = ⟨.token .comment, c :: tail, other⟩) : c = '/' := by
  unfold ofHead numberFrom comparisonFrom at h
  dsimp only at h
  repeat' split at h
  all_goals first | rfl | cases (Lexeme.mk.inj h).1

end Lexeme

/-! ### Scans a lexeme at a time -/

namespace TokenStream

variable {c : Char} {tail rest : List Char} {pos : Position}

def scanAt (pos : Position) (chars : List Char) : TokenStream :=
  scanFrom chars.length pos chars

theorem scan_eq (text : String) : scan text = scanAt .first text.toList := by
  rw [scan, scanAt, String.length_toList]

theorem scanAt_nil (pos : Position) : scanAt pos [] = ⟨[], .finished pos⟩ := rfl

theorem scanFrom_of_le {steps : Nat} {chars : List Char} (h : chars.length ≤ steps)
    (pos : Position) : scanFrom steps pos chars = scanAt pos chars := by
  have hsteps (length : Nat) : ∀ steps chars pos, chars.length ≤ length → length ≤ steps →
      scanFrom steps pos chars = scanFrom length pos chars := by
    induction length with
    | zero =>
      intro steps chars pos hchars _
      obtain rfl := List.length_eq_zero_iff.1 (Nat.le_zero.1 hchars)
      cases steps <;> rfl
    | succ length ih =>
      intro steps chars pos hchars hle
      obtain ⟨steps, rfl⟩ : ∃ fewer, steps = fewer + 1 := ⟨steps - 1, by omega⟩
      cases chars with
      | nil => rfl
      | cons c chars =>
        obtain ⟨kind, tail, rest, rfl, hhead⟩ := Lexeme.exists_ofHead c chars
        have hrest : rest.length ≤ length := by
          rw [List.length_cons, List.length_append] at hchars
          omega
        rw [scanFrom, scanFrom, hhead]
        dsimp only
        rw [ih steps rest _ hrest (Nat.le_of_succ_le_succ hle)]
  exact hsteps chars.length steps chars pos (Nat.le_refl _) h

/-- The tokens of a text that begins with a lexeme, by those behind it. -/
def behind (kind : LexemeKind) (text : List Char) (pos : Position) (next : TokenStream) :
    TokenStream :=
  match kind with
  | .blank => next
  | .token kind => next.cons ⟨kind, String.ofList text, pos⟩
  | .fault fault => ⟨[], .fault ⟨fault, pos⟩⟩

theorem scanAt_cons {kind : LexemeKind}
    (h : Lexeme.ofHead c (tail ++ rest) = ⟨kind, c :: tail, rest⟩) (pos : Position) :
    scanAt pos (c :: (tail ++ rest))
      = behind kind (c :: tail) pos (scanAt (pos.after (c :: tail)) rest) := by
  have hrest : rest.length ≤ (tail ++ rest).length := by
    rw [List.length_append]
    omega
  rw [scanAt, List.length_cons, scanFrom, h]
  dsimp only
  rw [scanFrom_of_le hrest]
  cases kind <;> rfl

theorem scanAt_run (h : Lexeme.isSourceBlank c = true) (pos : Position) (rest : List Char) :
    scanAt pos (c :: rest) = scanAt (pos.after (c :: rest.takeWhile Lexeme.isSourceBlank))
      (rest.dropWhile Lexeme.isSourceBlank) := by
  have hhead : Lexeme.ofHead c (rest.takeWhile Lexeme.isSourceBlank
      ++ rest.dropWhile Lexeme.isSourceBlank) = ⟨.blank, c :: rest.takeWhile Lexeme.isSourceBlank,
        rest.dropWhile Lexeme.isSourceBlank⟩ := by
    rw [List.takeWhile_append_dropWhile]
    exact if_pos h
  have hrun := scanAt_cons hhead pos
  rwa [List.takeWhile_append_dropWhile] at hrun

/-- Blank space is passed over a character at a time as well. -/
theorem scanAt_blank (h : Lexeme.isSourceBlank c = true) (pos : Position) (rest : List Char) :
    scanAt pos (c :: rest) = scanAt (pos.advance c) rest := by
  rw [scanAt_run h]
  cases rest with
  | nil => rfl
  | cons d rest =>
    by_cases hd : Lexeme.isSourceBlank d = true
    · rw [List.takeWhile_cons_of_pos hd, List.dropWhile_cons_of_pos hd, scanAt_run hd]
      rfl
    · rw [List.takeWhile_cons_of_neg hd, List.dropWhile_cons_of_neg hd]
      rfl

theorem scanAt_blanks {blanks : List Char} (h : ∀ c ∈ blanks, Lexeme.isSourceBlank c = true)
    (pos : Position) (rest : List Char) :
    scanAt pos (blanks ++ rest) = scanAt (pos.after blanks) rest := by
  induction blanks generalizing pos with
  | nil => rfl
  | cons c blanks ih =>
    obtain ⟨hc, hblanks⟩ := List.forall_mem_cons.1 h
    rw [List.cons_append, scanAt_blank hc, ih hblanks]
    rfl

end TokenStream

end BinarySchema
