import BinarySchema.Proofs.Decode.Step

/-!
# Accesses to one source

A source in memory is never anything but its input from some position on, so what an access gives and
where it stops are functions of the input and of the position in front of it (`Access.make_ofBytes`). By
them every access accounts for the bytes between its two positions, whether it succeeds or fails
(`Access.taken_inMemory`), and accesses that follow one another account for all bytes that they go over.
-/

namespace BinarySchema

/-- What a source is asked for: a number of bytes, or the bytes before the next zero byte. -/
inductive Access where
  | read (count : Nat) (field : String)
  | readUntilNul (field : String)

/-- An access that was made, with the positions before and after it. -/
structure Accessed where
  access : Access
  outcome : Except Failure (List UInt8)
  start : Nat
  stop : Nat

/-- The bytes of an input that an access accounts for: its result, with the zero byte that ended it, and
without a result those that it skipped. -/
def Accessed.taken (input : List UInt8) (made : Accessed) : List UInt8 :=
  match made.access, made.outcome with
  | .read .., .ok bytes => bytes
  | .read .., .error _ => []
  | .readUntilNul _, .ok bytes => bytes ++ [0]
  | .readUntilNul _, .error _ => (input.drop made.start).take (made.stop - made.start)

namespace Access

def run : Access → Decoder (List UInt8)
  | .read count field => Decoder.read count field
  | .readUntilNul field => Decoder.readUntilNul field

/-- Makes an access. The source goes on from where it stopped also if it failed. -/
def make (access : Access) (reading : Reading) : Accessed × Reading :=
  match access.run reading with
  | .ok bytes next => (⟨access, .ok bytes, reading.source.position, next.source.position⟩, next)
  | .error failure next =>
    (⟨access, .error failure, reading.source.position, next.source.position⟩, next)

/-- Makes accesses in order. -/
def makeAll : List Access → Reading → List Accessed × Reading
  | [], reading => ([], reading)
  | access :: rest, reading =>
    let (made, next) := access.make reading
    let (others, last) := makeAll rest next
    (made :: others, last)

/-- What an access comes to at a position of an input. A read fails, and stays where it is, if it is for
more bytes than there are; a string fails, and everything is skipped, if there is no zero byte. -/
def inMemory (input : List UInt8) (start : Nat) : Access → Accessed
  | .read count field =>
    if input.length - start < count then
      ⟨.read count field, .error (.shortRead count start (input.length - start) field), start, start⟩
    else ⟨.read count field, .ok ((input.drop start).take count), start, start + count⟩
  | .readUntilNul field =>
    if 0 ∈ input.drop start then
      let text := (input.drop start).takeWhile (· != 0)
      ⟨.readUntilNul field, .ok text, start, start + text.length + 1⟩
    else
      ⟨.readUntilNul field, .error (.decode ⟨.unterminated start, some field, some start⟩), start,
        max start input.length⟩

end Access

/-- That accesses, made one after another between two positions, take the input between them apart. -/
structure Partitions (input : List UInt8) (start : Nat) (made : List Accessed) (stop : Nat) : Prop where
  answers : ∀ one ∈ made, one = one.access.inMemory input one.start
  /-- Each access begins where the one before it stopped. -/
  chained : made.map (·.start) ++ [stop] = start :: made.map (·.stop)
  forward : (start :: made.map (·.stop)).Pairwise (· ≤ ·)
  taken : made.flatMap (·.taken input) = (input.drop start).take (stop - start)
  length : stop = start + (made.flatMap (·.taken input)).length

/-! ### Reads of a source in memory -/

namespace Source

variable {input : List UInt8} {start count : Nat}

theorem read_ofBytes (h : count ≤ input.length - start) :
    (ofBytes input start).read count
      = (.ok ((input.drop start).take count), ofBytes input (start + count)) := by
  rw [← skip_ofBytes h]
  exact read_enough rfl h

theorem length_takeWhile_lt {bytes : List UInt8} (h : 0 ∈ bytes) :
    (bytes.takeWhile (· != 0)).length < bytes.length := by
  refine Nat.lt_of_le_of_ne (List.takeWhile_prefix _).length_le fun hlength => ?_
  have hall := (List.takeWhile_prefix (· != 0)).eq_of_length hlength
  have hzero := List.takeWhile_eq_self_iff.1 hall 0 h
  exact absurd hzero (by decide)

theorem readUntilNul_ofBytes (h : 0 ∈ input.drop start) :
    (ofBytes input start).readUntilNul
      = (some ((input.drop start).takeWhile (· != 0)),
          ofBytes input (start + ((input.drop start).takeWhile (· != 0)).length + 1)) := by
  have hended := length_takeWhile_lt h
  rw [List.length_drop] at hended
  rw [Nat.add_assoc, ← skip_ofBytes hended]
  exact readUntilNul_ended rfl hended

theorem readUntilNul_ofBytes_unterminated (h : 0 ∉ input.drop start) :
    (ofBytes input start).readUntilNul = (none, ofBytes input (max start input.length)) := by
  have hall : (input.drop start).takeWhile (· != 0) = input.drop start :=
    List.takeWhile_eq_self_iff.2 fun byte hbyte => bne_iff_ne.2 fun hzero => h (hzero ▸ hbyte)
  have hlength : ((input.drop start).takeWhile (· != 0)).length = input.length - start := by
    rw [hall, List.length_drop]
  have hend : max start input.length = start + (input.length - start) := by omega
  rw [hend, ← skip_ofBytes (Nat.le_refl _), ← hlength]
  exact readUntilNul_unended rfl (Nat.not_lt.2 hlength.ge)

end Source

namespace Access

/-! ### One access -/

theorem make_ofBytes (access : Access) (input : List UInt8) (start : Nat)
    (warnings : List UnlistedValue) :
    access.make ⟨.ofBytes input start, warnings⟩
      = (access.inMemory input start,
          ⟨.ofBytes input (access.inMemory input start).stop, warnings⟩) := by
  cases access with
  | read count field =>
    simp only [make, run, inMemory, Decoder.read_run]
    by_cases hshort : input.length - start < count
    · rw [Source.read_short hshort, if_pos hshort]
      rfl
    · rw [Source.read_ofBytes (Nat.not_lt.1 hshort), if_neg hshort]
      rfl
  | readUntilNul field =>
    simp only [make, run, inMemory, Decoder.readUntilNul_run]
    by_cases hzero : 0 ∈ input.drop start
    · rw [Source.readUntilNul_ofBytes hzero, if_pos hzero]
      rfl
    · rw [Source.readUntilNul_ofBytes_unterminated hzero, if_neg hzero]
      rfl

@[simp] theorem access_inMemory (access : Access) (input : List UInt8) (start : Nat) :
    (access.inMemory input start).access = access := by
  cases access <;> simp only [inMemory] <;> split <;> rfl

@[simp] theorem start_inMemory (access : Access) (input : List UInt8) (start : Nat) :
    (access.inMemory input start).start = start := by
  cases access <;> simp only [inMemory] <;> split <;> rfl

theorem taken_inMemory (access : Access) (input : List UInt8) (start : Nat) :
    ∃ count, (access.inMemory input start).stop = start + count ∧ count ≤ input.length - start ∧
      (access.inMemory input start).taken input = (input.drop start).take count := by
  cases access with
  | read count field =>
    simp only [inMemory]
    split
    · exact ⟨0, rfl, Nat.zero_le _, rfl⟩
    · rename_i henough
      exact ⟨count, rfl, Nat.not_lt.1 henough, rfl⟩
  | readUntilNul field =>
    simp only [inMemory]
    split
    · rename_i hzero
      have hended := Source.length_takeWhile_lt hzero
      refine ⟨_, Nat.add_assoc _ _ _, ?_, (Source.take_takeWhile hended).symm⟩
      rwa [List.length_drop] at hended
    · refine ⟨input.length - start, by dsimp only; omega, Nat.le_refl _, ?_⟩
      show (input.drop start).take (max start input.length - start) = _
      congr 1
      omega

end Access

/-! ### Accesses in order -/

namespace Partitions

variable {input : List UInt8} {start stop : Nat}

theorem nil (input : List UInt8) (start : Nat) : Partitions input start [] start where
  answers := nofun
  chained := rfl
  forward := List.pairwise_singleton _ _
  taken := by simp
  length := rfl

/-- One more access in front. -/
theorem cons (access : Access) {others : List Accessed}
    (h : Partitions input (access.inMemory input start).stop others stop) :
    Partitions input start (access.inMemory input start :: others) stop := by
  obtain ⟨count, hstop, hcount, htaken⟩ := access.taken_inMemory input start
  have hlength : ((input.drop start).take count).length = count := by
    rw [List.length_take, List.length_drop]
    omega
  constructor
  case answers =>
    intro one hone
    rcases List.mem_cons.1 hone with rfl | hothers
    · simp
    · exact h.answers one hothers
  case chained => simp [h.chained]
  case forward =>
    have hle : start ≤ (access.inMemory input start).stop := hstop ▸ Nat.le_add_right _ _
    refine List.pairwise_cons.2 ⟨fun place hplace => ?_, h.forward⟩
    rcases List.mem_cons.1 hplace with rfl | hlater
    · exact hle
    · exact hle.trans ((List.pairwise_cons.1 h.forward).1 place hlater)
  case taken =>
    have hsplit : stop - start = count + (stop - (start + count)) := by
      have := h.length
      omega
    rw [List.flatMap_cons, htaken, h.taken, hstop, hsplit, List.take_add, List.drop_drop]
  case length =>
    rw [List.flatMap_cons, List.length_append, htaken, hlength, ← Nat.add_assoc, ← hstop]
    exact h.length

end Partitions

/-- Accesses to a source in memory take its input apart, from where it begins to where it stands behind
them: every byte belongs to one access, in order. -/
theorem accesses_partition (input : List UInt8) (start : Nat) (accesses : List Access) :
    let run := Access.makeAll accesses ⟨.ofBytes input start, []⟩
    run.1.map (·.access) = accesses ∧ Partitions input start run.1 run.2.source.position := by
  induction accesses generalizing start with
  | nil => exact ⟨rfl, .nil input start⟩
  | cons access rest ih =>
    unfold Access.makeAll
    rw [Access.make_ofBytes]
    obtain ⟨haccesses, hpartitions⟩ := ih (access.inMemory input start).stop
    exact ⟨by simp [haccesses], hpartitions.cons access⟩

example :
    (Access.makeAll [.readUntilNul "a", .read 9 "b", .read 1 "c", .readUntilNul "d"]
      ⟨.ofBytes [7, 1, 0, 2, 3] 1, []⟩).1.map (·.taken [7, 1, 0, 2, 3])
      = [[1, 0], [], [2], [3]] := by
  decide

end BinarySchema
