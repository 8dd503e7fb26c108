/-!
# Byte sources

The input of a decode: bytes that are read in order from a starting position, which may lie beyond
their end. What is still unread is kept as it is, so a read splits it into what it returns and what
it leaves. A source may hand out at most a certain number of bytes at a time; a read that gets fewer
bytes than it needs fails although it has taken them.
-/

namespace BinarySchema

structure Source where
  size : Nat
  position : Nat
  rest : List UInt8
  /-- The most bytes that one read gets. -/
  chunk : Option Nat := none
  length_rest : rest.length = size - position
  deriving DecidableEq, Repr

namespace Source

def ofBytes (bytes : List UInt8) (position : Nat := 0) (chunk : Option Nat := none) : Source :=
  { size := bytes.length, position, rest := bytes.drop position, chunk
    length_rest := List.length_drop }

/-- The number of bytes still to be read. -/
def unread (source : Source) : Nat :=
  source.size - source.position

theorem unread_eq (source : Source) : source.unread = source.rest.length :=
  source.length_rest.symm

def atEnd (source : Source) : Bool :=
  source.size ≤ source.position

/-- The source after some of its unread bytes. -/
def skip (source : Source) (count : Nat) : Source :=
  { source with
    position := source.position + min count source.unread
    rest := source.rest.drop count
    length_rest := by
      rw [List.length_drop, source.length_rest, unread]
      omega }

/-- Reads a number of bytes. A failed read gives the number of bytes that it could have. -/
def read (source : Source) (count : Nat) : Except Nat (List UInt8) × Source :=
  if source.unread < count then (.error source.unread, source)
  else
    let got := min count (source.chunk.getD count)
    if got < count then (.error got, source.skip got)
    else (.ok (source.rest.take count), source.skip count)

def readRest (source : Source) : List UInt8 × Source :=
  (source.rest, source.skip source.unread)

/-- Reads the bytes before the next zero byte, and that byte. Without one, everything is read and
nothing returned. -/
def readUntilNul (source : Source) : Option (List UInt8) × Source :=
  let text := source.rest.takeWhile (· != 0)
  if source.chunk = some 0 then (none, source)
  else if text.length < source.unread then (some text, source.skip (text.length + 1))
  else (none, source.skip text.length)

@[simp] theorem rest_skip (source : Source) (count : Nat) :
    (source.skip count).rest = source.rest.drop count := rfl

@[simp] theorem size_skip (source : Source) (count : Nat) :
    (source.skip count).size = source.size := rfl

@[simp] theorem chunk_skip (source : Source) (count : Nat) :
    (source.skip count).chunk = source.chunk := rfl

/-- A read splits what was unread into what it returns and what it leaves. -/
theorem read_ok {source next : Source} {count : Nat} {bytes : List UInt8}
    (h : source.read count = (.ok bytes, next)) :
    bytes.length = count ∧ bytes ++ next.rest = source.rest := by
  unfold read at h
  split at h
  · simp at h
  · rename_i enough
    dsimp only at h
    split at h
    · simp at h
    · simp only [Prod.mk.injEq, Except.ok.injEq] at h
      obtain ⟨rfl, rfl⟩ := h
      refine ⟨?_, by simp⟩
      rw [List.length_take, ← unread_eq]
      omega

end Source

end BinarySchema
