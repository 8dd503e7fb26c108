import BinarySchema.Decode
import Mathlib.Tactic.Ring

/-!
# Numbers packed into one

Several numbers stand side by side in the bits of one, the first in the lowest bits. Packing adds them up,
each shifted past the widths of those before it; unpacking takes remainders and quotients by powers of two.
The two are inverse to each other up to the bits that no width covers: unpacking any integer and packing
again gives its remainder by `packed_unpacked`, and numbers that fit their widths come back by
`unpacked_packed`. A negative integer is no exception, because its remainder is that of its two's complement.
-/

namespace BinarySchema.Number

/-- Whether a number can stand in so many bits. -/
def Fits (width : Nat) (value : Int) : Prop :=
  0 ≤ value ∧ value < 2 ^ width

instance (width : Nat) (value : Int) : Decidable (Fits width value) :=
  inferInstanceAs (Decidable (_ ∧ _))

/-- The sum of the values, each shifted past the widths before it and some bits below them all. -/
def packed (shift : Nat) : (widths : List Nat) → (values : List Int) → Int
  | width :: widths, value :: values => value * 2 ^ shift + packed (shift + width) widths values
  | _, _ => 0

/-- What an integer holds in bits of the given widths, from its lowest bit on. -/
def unpacked : (widths : List Nat) → Int → List Int
  | [], _ => []
  | width :: widths, n => n % 2 ^ width :: unpacked widths (n / 2 ^ width)

variable {widths : List Nat} {values : List Int}

theorem two_pow_pos (width : Nat) : (0 : Int) < 2 ^ width :=
  Int.pow_pos (by decide)

theorem packed_shift (shift : Nat) (widths : List Nat) (values : List Int) :
    packed shift widths values = 2 ^ shift * packed 0 widths values := by
  induction widths generalizing shift values with
  | nil => simp [packed]
  | cons width widths ih =>
    cases values with
    | nil => simp [packed]
    | cons value values =>
      rw [packed, packed, ih, ih (0 + width), Nat.zero_add, pow_zero, pow_add]
      ring

theorem packed_cons (width : Nat) (value : Int) (widths : List Nat) (values : List Int) :
    packed 0 (width :: widths) (value :: values) = value + 2 ^ width * packed 0 widths values := by
  rw [packed, packed_shift, Nat.zero_add, pow_zero, mul_one]

theorem emod_mul (n : Int) {a b : Int} (ha : 0 < a) (hb : 0 < b) :
    n % (a * b) = n % a + a * (n / a % b) := by
  have hsplit : n % a + a * (n / a % b) + a * b * (n / a / b) = n := by
    have hn := Int.mul_ediv_add_emod n a
    have hq := Int.mul_ediv_add_emod (n / a) b
    calc n % a + a * (n / a % b) + a * b * (n / a / b)
        = a * (b * (n / a / b) + n / a % b) + n % a := by ring
      _ = n := by rw [hq, hn]
  have hlow := Int.emod_nonneg n ha.ne'
  have hlow' := Int.emod_lt_of_pos n ha
  have hhigh : 0 ≤ a * (n / a % b) := Int.mul_nonneg ha.le (Int.emod_nonneg _ hb.ne')
  have hhigh' : a * (n / a % b) ≤ a * b - a := by
    have hle : n / a % b ≤ b - 1 := Int.le_sub_one_of_lt (Int.emod_lt_of_pos _ hb)
    have hmul := Int.mul_le_mul_of_nonneg_left hle ha.le
    rwa [Int.mul_sub, Int.mul_one] at hmul
  have hbounds : 0 ≤ n % a + a * (n / a % b) ∧ n % a + a * (n / a % b) < a * b := by omega
  exact ((Int.ediv_emod_unique (Int.mul_pos ha hb)).2 ⟨hsplit, hbounds⟩).2

theorem unpacked_fits (widths : List Nat) (n : Int) : List.Forall₂ Fits widths (unpacked widths n) := by
  induction widths generalizing n with
  | nil => exact .nil
  | cons width widths ih =>
    have hpos := two_pow_pos width
    exact .cons ⟨Int.emod_nonneg n hpos.ne', Int.emod_lt_of_pos n hpos⟩ (ih _)

theorem packed_unpacked (widths : List Nat) (n : Int) :
    packed 0 widths (unpacked widths n) = n % 2 ^ widths.sum := by
  induction widths generalizing n with
  | nil => simp [packed]
  | cons width widths ih =>
    rw [unpacked, packed_cons, ih, List.sum_cons, pow_add,
      emod_mul n (two_pow_pos width) (two_pow_pos widths.sum)]

theorem unpacked_packed (h : List.Forall₂ Fits widths values) :
    unpacked widths (packed 0 widths values) = values := by
  induction h with
  | nil => rfl
  | cons hfits _ ih =>
    obtain ⟨hnonneg, hlt⟩ := hfits
    rw [packed_cons, unpacked, Int.add_mul_emod_self_left, Int.emod_eq_of_lt hnonneg hlt,
      Int.add_mul_ediv_left _ _ (two_pow_pos _).ne', Int.ediv_eq_zero_of_lt hnonneg hlt, Int.zero_add, ih]

theorem packed_fits (h : List.Forall₂ Fits widths values) :
    Fits widths.sum (packed 0 widths values) := by
  have hself := packed_unpacked widths (packed 0 widths values)
  rw [unpacked_packed h] at hself
  rw [hself]
  exact ⟨Int.emod_nonneg _ (two_pow_pos _).ne', Int.emod_lt_of_pos _ (two_pow_pos _)⟩

/-! ### Masks and shifts -/

theorem lt_two_pow_of_log2_lt {width : Nat} {n : Int} (h : 0 ≤ n ∧ n.toNat.log2 < width) :
    n < 2 ^ width := by
  obtain ⟨hnonneg, hlog⟩ := h
  lift n to Nat using hnonneg
  rw [Int.toNat_natCast] at hlog
  by_cases hzero : n = 0
  · rw [hzero]
    exact two_pow_pos width
  · exact_mod_cast (Nat.log2_lt hzero).1 hlog

end BinarySchema.Number

namespace BinarySchema.Decoder

theorem lowBits_eq (width : Nat) (n : Int) : lowBits width n = n % 2 ^ width := by
  unfold lowBits
  split
  · rename_i h
    exact (Int.emod_eq_of_lt h.1 (Number.lt_two_pow_of_log2_lt h)).symm
  · rfl

theorem dropBits_eq (width : Nat) (n : Int) : dropBits width n = n / 2 ^ width := by
  unfold dropBits
  split
  · rename_i h
    exact (Int.ediv_eq_zero_of_lt h.1 (Number.lt_two_pow_of_log2_lt h)).symm
  · rw [Int.shiftRight_eq_div_pow]
    norm_cast

end BinarySchema.Decoder
