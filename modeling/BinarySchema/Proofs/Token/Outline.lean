import BinarySchema.Proofs.Token.Layout

/-!
# The outline of a source

Where the declarations of a source end can be told from its braces and semicolons alone: a declaration
ends with the semicolon that stands outside of all braces, or with the brace that closes the last open
one. So a source falls into stretches, one for each declaration, without being read any further, and the
pieces at the head of a stretch say what it includes or which name it declares.

The items of a source may be its tokens or its lexemes. What matters of an item is its piece; comments
and blanks have none.
-/

namespace BinarySchema

namespace Piece

/-- The number of open braces behind a piece; none if a declaration ends with it. -/
def deepen (depth : Nat) (piece : Piece) : Option Nat :=
  if piece = .mark "\x7b" then some (depth + 1)
  else if piece = .mark "\x7d" then if depth ≤ 1 then none else some (depth - 1)
  else if piece = .mark ";" ∧ depth = 0 then none
  else some depth

theorem closer_of_deepen {piece : Piece} {depth : Nat} (h : piece.deepen depth = none) :
    piece = .mark ";" ∨ piece = .mark "\x7d" := by
  unfold deepen at h
  split at h
  · cases h
  split at h
  · exact .inr ‹_›
  split at h
  · rename_i hclose
    exact .inl hclose.1
  · cases h

theorem deepen_of_kind {piece : Piece} (h : piece.kind ≠ .punctuation) (depth : Nat) :
    piece.deepen depth = some depth := by
  have hmark (text : String) : piece ≠ .mark text := by
    rintro rfl
    exact h rfl
  rw [deepen, if_neg (hmark _), if_neg (hmark _), if_neg fun hclose => hmark _ hclose.1]

end Piece

def Token.solid? (token : Token) : Option Piece :=
  if token.kind = .comment then none else some token.piece

theorem Token.solid?_of_ne {token : Token} (h : token.kind ≠ .comment) :
    token.solid? = some token.piece :=
  if_neg h

namespace Outline

variable {α : Type} (piece? : α → Option Piece)

def deepen (depth : Nat) (item : α) : Option Nat :=
  match piece? item with
  | none => some depth
  | some piece => piece.deepen depth

/-- The first stretch of items that begin at a depth, and the stretches behind it. -/
def split : Nat → List α → List α × List (List α)
  | _, [] => ([], [])
  | depth, item :: rest =>
    match deepen piece? depth item with
    | none => ([item], (split 0 rest).1 :: (split 0 rest).2)
    | some depth => (item :: (split depth rest).1, (split depth rest).2)

def stretches (items : List α) : List (List α) :=
  (split piece? 0 items).1 :: (split piece? 0 items).2

/-- The pieces of items. -/
def solid (items : List α) : List Piece :=
  items.filterMap piece?

def depth? : Nat → List α → Option Nat
  | depth, [] => some depth
  | depth, item :: rest => (deepen piece? depth item).bind (depth? · rest)

/-- Whether a declaration ends exactly with the last item. -/
def Closes : Nat → List α → Prop
  | _, [] => False
  | depth, item :: rest =>
    match deepen piece? depth item with
    | none => rest = []
    | some depth => Closes depth rest

variable {piece?}

theorem solid_append (left right : List α) :
    solid piece? (left ++ right) = solid piece? left ++ solid piece? right :=
  List.filterMap_append

theorem depth?_append {depth between : Nat} {left right : List α}
    (h : depth? piece? depth left = some between) :
    depth? piece? depth (left ++ right) = depth? piece? between right := by
  induction left generalizing depth with
  | nil =>
    cases h
    rfl
  | cons item rest ih =>
    obtain ⟨next, hitem, hrest⟩ := Option.bind_eq_some_iff.1 h
    rw [List.cons_append, depth?, hitem]
    exact ih hrest

theorem closes_append {depth between : Nat} {left right : List α}
    (h : depth? piece? depth left = some between) (hright : Closes piece? between right) :
    Closes piece? depth (left ++ right) := by
  induction left generalizing depth with
  | nil =>
    cases h
    exact hright
  | cons item rest ih =>
    obtain ⟨next, hitem, hrest⟩ := Option.bind_eq_some_iff.1 h
    rw [List.cons_append, Closes, hitem]
    exact ih hrest

/-- A declaration ends with a semicolon or a closing brace. -/
theorem exists_closer {depth : Nat} {used : List α} (h : Closes piece? depth used) :
    ∃ front last, used = front ++ [last] ∧
      (piece? last = some (.mark ";") ∨ piece? last = some (.mark "\x7d")) := by
  induction used generalizing depth with
  | nil => exact h.elim
  | cons item rest ih =>
    unfold Closes at h
    cases hitem : deepen piece? depth item with
    | none =>
      rw [hitem] at h
      subst h
      refine ⟨[], item, rfl, ?_⟩
      unfold deepen at hitem
      cases hpiece : piece? item with
      | none =>
        rw [hpiece] at hitem
        cases hitem
      | some piece =>
        rw [hpiece] at hitem
        exact (Piece.closer_of_deepen hitem).imp (congrArg some) (congrArg some)
    | some next =>
      rw [hitem] at h
      obtain ⟨front, last, rfl, hlast⟩ := ih h
      exact ⟨item :: front, last, rfl, hlast⟩

theorem split_of_closes {depth : Nat} {used : List α} (h : Closes piece? depth used)
    (rest : List α) : split piece? depth (used ++ rest) = (used, stretches piece? rest) := by
  induction used generalizing depth with
  | nil => exact h.elim
  | cons item more ih =>
    rw [List.cons_append, split]
    unfold Closes at h
    cases hitem : deepen piece? depth item with
    | none =>
      rw [hitem] at h
      subst h
      rfl
    | some next =>
      rw [hitem] at h
      dsimp only
      rw [ih h]

theorem stretches_of_closes {used : List α} (h : Closes piece? 0 used) (rest : List α) :
    stretches piece? (used ++ rest) = used :: stretches piece? rest := by
  rw [stretches, split_of_closes h]

/-- Items without pieces belong to no declaration. -/
theorem stretches_of_solid_eq_nil {items : List α} (h : solid piece? items = []) :
    stretches piece? items = [items] := by
  have hsplit (depth : Nat) : split piece? depth items = (items, []) := by
    induction items with
    | nil => rfl
    | cons item rest ih =>
      have hitem : piece? item = none := List.filterMap_eq_nil_iff.1 h item List.mem_cons_self
      rw [solid, List.filterMap_cons_none hitem] at h
      rw [split, deepen, hitem]
      dsimp only
      rw [ih h]
  rw [stretches, hsplit]

end Outline

/-! ### What stretches declare -/

namespace Piece

def includedName? : List Piece → Option String
  | [keyword, name, closer] =>
    if keyword = .word "include" ∧ closer = .mark ";" then
      match name.kind with
      | .string => some (String.ofList (name.text.toList.drop 1).dropLast)
      | .word => some name.text
      | _ => none
    else none
  | _ => none

theorem includedName?_of_ne {keyword : String} (h : keyword ≠ "include") (rest : List Piece) :
    includedName? (.word keyword :: rest) = none := by
  unfold includedName?
  split
  · rename_i heq
    rw [← (List.cons.inj heq).1, if_neg]
    exact fun hinclude => h (Piece.mk.inj hinclude.1).2
  · rfl

theorem kind_of_includedName? {keyword name closer : Piece} {text : String}
    (h : includedName? [keyword, name, closer] = some text) : name.kind ≠ .punctuation := by
  intro hkind
  simp only [includedName?, hkind] at h
  split at h <;> cases h

def declaredName? : List Piece → Option String
  | keyword :: name :: _ =>
    if keyword ∈ [.word "struct", .word "enum", .word "bitfield"] then some name.text else none
  | _ => none

def declaresRoot (pieces : List Piece) : Bool :=
  pieces.head? = some (.word "schema")

end Piece

def includedNames (tokens : List Token) : List String :=
  (Outline.stretches Token.solid? tokens).filterMap fun stretch =>
    Piece.includedName? (Outline.solid Token.solid? stretch)

def declaredNames (tokens : List Token) : List String :=
  (Outline.stretches Token.solid? tokens).filterMap fun stretch =>
    Piece.declaredName? (Outline.solid Token.solid? stretch)

end BinarySchema
