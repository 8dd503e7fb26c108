import BinarySchema.Source
import Mathlib.Data.List.TakeWhile

/-!
# Consumption of a source

Reading moves a source forward over bytes that it held: the unread part loses them at its head and
the position grows by their number, while the size and the chunk stay. `Consumes` says so for one
read and, because it composes, for any run of reads.
-/

namespace BinarySchema.Source

/-! ### Skipping -/

variable {source : Source}

theorem ext {other : Source} (hsize : source.size = other.size)
    (hposition : source.position = other.position) (hrest : source.rest = other.rest)
    (hchunk : source.chunk = other.chunk) : source = other := by
  cases source
  cases other
  simp_all

theorem skip_zero (source : Source) : source.skip 0 = source :=
  ext rfl (by simp [skip]) rfl rfl

theorem unread_skip (source : Source) (count : Nat) :
    (source.skip count).unread = source.unread - count := by
  rw [unread_eq, unread_eq, rest_skip, List.length_drop]

theorem position_skip {count : Nat} (h : count ≤ source.unread) :
    (source.skip count).position = source.position + count := by
  show source.position + min count source.unread = source.position + count
  rw [Nat.min_eq_left h]

theorem skip_skip {count more : Nat} (h : count + more ≤ source.unread) :
    (source.skip count).skip more = source.skip (count + more) := by
  have hmore : more ≤ (source.skip count).unread := by
    rw [unread_skip]
    omega
  have hposition : ((source.skip count).skip more).position = (source.skip (count + more)).position := by
    rw [position_skip hmore, position_skip (by omega), position_skip h, Nat.add_assoc]
  refine ext rfl hposition ?_ rfl
  rw [rest_skip, rest_skip, rest_skip, List.drop_drop]

theorem skip_ofBytes {bytes : List UInt8} {start count : Nat} (h : count ≤ bytes.length - start) :
    (ofBytes bytes start).skip count = ofBytes bytes (start + count) :=
  ext rfl (position_skip h) List.drop_drop rfl

theorem skip_ofBytes_zero {bytes : List UInt8} {count : Nat} (h : count ≤ bytes.length) :
    (ofBytes bytes).skip count = ofBytes bytes count := by
  rw [skip_ofBytes h, Nat.zero_add]

/-! ### Reading from memory -/

section

variable {count : Nat}

theorem read_short (h : source.unread < count) :
    source.read count = (.error source.unread, source) :=
  if_pos h

theorem read_enough (hmemory : source.chunk = none) (h : count ≤ source.unread) :
    source.read count = (.ok (source.rest.take count), source.skip count) := by
  unfold read
  rw [if_neg (Nat.not_lt.2 h), hmemory]
  simp

theorem readUntilNul_ended (hmemory : source.chunk = none)
    (h : (source.rest.takeWhile (· != 0)).length < source.unread) :
    source.readUntilNul = (some (source.rest.takeWhile (· != 0)),
      source.skip ((source.rest.takeWhile (· != 0)).length + 1)) := by
  unfold readUntilNul
  rw [hmemory]
  exact (if_neg nofun).trans (if_pos h)

theorem readUntilNul_unended (hmemory : source.chunk = none)
    (h : ¬ (source.rest.takeWhile (· != 0)).length < source.unread) :
    source.readUntilNul = (none, source.skip (source.rest.takeWhile (· != 0)).length) := by
  unfold readUntilNul
  rw [hmemory]
  exact (if_neg nofun).trans (if_neg h)

end

/-! ### Consuming -/

/-- One source is what another becomes when some bytes are taken from it. -/
structure Consumes (before : Source) (bytes : List UInt8) (after : Source) : Prop where
  rest : before.rest = bytes ++ after.rest
  position : after.position = before.position + bytes.length
  size : after.size = before.size
  chunk : after.chunk = before.chunk

theorem Consumes.refl (source : Source) : source.Consumes [] source :=
  ⟨rfl, rfl, rfl, rfl⟩

theorem Consumes.trans {first second third : Source} {left right : List UInt8}
    (hleft : first.Consumes left second) (hright : second.Consumes right third) :
    first.Consumes (left ++ right) third where
  rest := by rw [hleft.rest, hright.rest, List.append_assoc]
  position := by
    rw [hright.position, hleft.position, List.length_append]
    omega
  size := hright.size.trans hleft.size
  chunk := hright.chunk.trans hleft.chunk

/-- The bytes that are taken stand at the head of the unread ones. -/
theorem Consumes.take {before after : Source} {bytes : List UInt8}
    (h : before.Consumes bytes after) : before.rest.take bytes.length = bytes := by
  rw [h.rest, List.take_left]

theorem Consumes.length {before after : Source} {bytes : List UInt8}
    (h : before.Consumes bytes after) : after.position - before.position = bytes.length := by
  rw [h.position]
  omega

theorem skip_consumes (source : Source) (count : Nat) :
    source.Consumes (source.rest.take count) (source.skip count) where
  rest := by simp
  position := by
    rw [List.length_take, ← unread_eq]
    rfl
  size := rfl
  chunk := rfl

theorem read_consumes {source next : Source} {count : Nat} {bytes : List UInt8}
    (h : source.read count = (.ok bytes, next)) :
    bytes.length = count ∧ source.Consumes bytes next := by
  refine ⟨(read_ok h).1, ?_⟩
  unfold read at h
  split at h
  · simp at h
  · dsimp only at h
    split at h
    · simp at h
    · simp only [Prod.mk.injEq, Except.ok.injEq] at h
      obtain ⟨rfl, rfl⟩ := h
      exact source.skip_consumes count

theorem exists_eq_takeWhile_append {bytes : List UInt8}
    (h : (bytes.takeWhile (· != 0)).length < bytes.length) :
    ∃ tail, bytes = bytes.takeWhile (· != 0) ++ 0 :: tail := by
  have hsplit := List.takeWhile_append_dropWhile (p := (· != 0)) (l := bytes)
  cases hdrop : bytes.dropWhile (· != 0) with
  | nil =>
    rw [hdrop, List.append_nil] at hsplit
    rw [hsplit] at h
    omega
  | cons byte tail =>
    have hhead := List.head_dropWhile_not (· != 0) (l := bytes) (by simp [hdrop])
    simp only [hdrop, List.head_cons, bne_eq_false_iff_eq] at hhead
    subst hhead
    exact ⟨tail, by rw [← hdrop, hsplit]⟩

theorem take_takeWhile {bytes : List UInt8}
    (h : (bytes.takeWhile (· != 0)).length < bytes.length) :
    bytes.take ((bytes.takeWhile (· != 0)).length + 1) = bytes.takeWhile (· != 0) ++ [0] := by
  obtain ⟨tail, htail⟩ := exists_eq_takeWhile_append h
  generalize bytes.takeWhile (· != 0) = text at htail ⊢
  rw [htail, ← List.singleton_append, ← List.append_assoc]
  exact List.take_left' (by simp)

theorem readUntilNul_consumes {source next : Source} {bytes : List UInt8}
    (h : source.readUntilNul = (some bytes, next)) :
    0 ∉ bytes ∧ source.Consumes (bytes ++ [0]) next := by
  unfold readUntilNul at h
  dsimp only at h
  split at h
  · simp at h
  split at h
  · rename_i hshort
    simp only [Prod.mk.injEq, Option.some.injEq] at h
    obtain ⟨rfl, rfl⟩ := h
    constructor
    · intro hmem
      simpa using List.mem_takeWhile_imp hmem
    · rw [← take_takeWhile (source.unread_eq ▸ hshort)]
      exact source.skip_consumes _
  · simp at h

end BinarySchema.Source
