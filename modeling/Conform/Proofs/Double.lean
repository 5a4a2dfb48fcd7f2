import Mathlib
import Conform.Json

/-!
# The double of a JSON number

An integer of 64 bits has a finite double. The argument follows the exponent of an unpacked double through rounding, packing
and multiplication. Rounding a mantissa of `k` bits raises the exponent by `2 * k` at most, and a double is packed as an
infinity only when its exponent is above 971.
-/

namespace Conform

namespace Double

open Float.Model Float.Model.UnpackedFloat

/-- The target exponent of a double keeps 53 bits of the mantissa, unless that falls below the least exponent. -/
theorem targetExponent_binary64 (t : Int) : Format.binary64.targetExponent t = max (t - 53) (-1074) := rfl

theorem exponentBias_binary64 : Format.binary64.exponentBias = 1023 := rfl

/-! ### Rounding -/

/-- Whether an unpacked double is zero, or finite with an exponent that is at most the given one. -/
def Within (top : Int) : UnpackedFloat → Prop
  | .zero _ => True
  | .finite _ _ e _ => e ≤ top
  | .infinity _ => False
  | .notANumber => False

variable {top : Int} {f : UnpackedFloat}

theorem Within.mono {top' : Int} (h : Within top f) (hle : top ≤ top') : Within top' f := by
  cases f with
  | zero s => trivial
  | finite s m e hm => exact Int.le_trans h hle
  | infinity s => exact h
  | notANumber => exact h

theorem Within.isFinite (h : Within top f) : f.isFinite = true := by
  cases f with
  | zero s => rfl
  | finite s m e hm => rfl
  | infinity s => exact h.elim
  | notANumber => exact h.elim

theorem Within.neg (h : Within top f) : Within top f.neg := by
  cases f with
  | zero s => trivial
  | finite s m e hm => exact h
  | infinity s => exact h
  | notANumber => exact h

/-- Dropping bits of a mantissa does not make it larger. -/
theorem mantissa_shiftRight_le (em : ExtendedMantissa) (k : Nat) : (em >>> k).mantissa ≤ em.mantissa := by
  induction k with
  | zero => exact Nat.le_refl _
  | succ k ih => exact Nat.le_trans (Nat.div_le_self _ 2) ih

theorem mantissa_ofMantissaAndAccuracy (m : Nat) (a : Accuracy) :
    (ExtendedMantissa.ofMantissaAndAccuracy m a).mantissa = m := by
  cases a with
  | exact => rfl
  | inexact o => cases o <;> rfl

theorem roundToNearestEven_le (m : Nat) (a : Accuracy) : a.roundToNearestEven m ≤ m + 1 := by
  cases a with
  | exact => exact Nat.le_succ m
  | inexact o => cases o <;> simp only [Accuracy.roundToNearestEven] <;> omega

theorem log2_le_of_le_two_pow {m k : Nat} (h : m ≤ 2 ^ k) : m.log2 ≤ k := by
  by_cases hm : m = 0
  · simp [hm]
  · exact Nat.le_of_lt_succ ((Nat.log2_lt hm).2 (Nat.lt_of_le_of_lt h (Nat.pow_lt_pow_succ (by decide))))

/-- Shifting to the target exponent drops bits of the mantissa. -/
theorem mantissa_shiftToTargetExponent_le (m : Nat) (e : Int) (a : Accuracy) :
    (shiftToTargetExponent .binary64 m e a).1.mantissa ≤ m :=
  Nat.le_trans (mantissa_shiftRight_le _ _) (Nat.le_of_eq (mantissa_ofMantissaAndAccuracy m a))

/-- Shifting a mantissa of `k` bits raises an exponent by `k` at most, once it is above the least one. -/
theorem exponent_shiftToTargetExponent_le {m k : Nat} (hm : m ≤ 2 ^ k) (e : Int) (a : Accuracy) :
    (shiftToTargetExponent .binary64 m e a).2 ≤ max e (-1074) + k := by
  have hlog : m.log2 ≤ k := log2_le_of_le_two_pow hm
  simp only [shiftToTargetExponent, shiftToExponent, targetExponent_binary64, totalExponent]
  omega

/-- What rounding a mantissa of `k` bits does to the exponent: it shifts twice, the second time a mantissa larger by one. -/
theorem within_roundWithAccuracy {m k : Nat} (hm : m < 2 ^ k) (s : Sign) (e : Int) (a : Accuracy) :
    Within (max e (-1074) + 2 * k) (roundWithAccuracy .binary64 s m e a) := by
  have hfirst := exponent_shiftToTargetExponent_le (Nat.le_of_lt hm) e a
  have hdropped := mantissa_shiftToTargetExponent_le m e a
  unfold roundWithAccuracy
  generalize shiftToTargetExponent .binary64 m e a = first at hfirst hdropped
  obtain ⟨em, e'⟩ := first
  simp only at hfirst hdropped ⊢
  have hrounded : em.roundedMantissa ≤ 2 ^ k := Nat.le_trans (roundToNearestEven_le em.mantissa em.accuracy) (by omega)
  have hsecond := exponent_shiftToTargetExponent_le hrounded e' .exact
  split
  · trivial
  · simp only [Within]
    omega

/-- A word rounds to a double with a small exponent. -/
theorem within_ofNat {n : Nat} (hn : n < 2 ^ 64) : Within 232 (UnpackedFloat.ofNat .binary64 n) := by
  unfold UnpackedFloat.ofNat UnpackedFloat.ofInt UnpackedFloat.normalize
  split
  · rename_i hnegative
    exact absurd (Int.compare_eq_lt.1 hnegative) (by omega)
  · trivial
  · simp only [UnpackedFloat.round, decreaseExponent, targetExponent_binary64, totalExponent, Int.toNat_natCast]
    have hshift : ((0 : Int) - max ((n.log2 : Int) + 1 + 0 - 53) (-1074)).toNat ≤ 52 := by omega
    have hmantissa : n <<< ((0 : Int) - max ((n.log2 : Int) + 1 + 0 - 53) (-1074)).toNat < 2 ^ 116 := by
      rw [Nat.shiftLeft_eq]
      calc n * 2 ^ _ ≤ n * 2 ^ 52 := Nat.mul_le_mul_left n (Nat.pow_le_pow_right (by decide) hshift)
        _ < 2 ^ 64 * 2 ^ 52 := Nat.mul_lt_mul_of_pos_right hn (by decide)
        _ = 2 ^ 116 := by decide
    exact (within_roundWithAccuracy hmantissa _ _ _).mono (by omega)

/-- A word read as a decimal number rounds to a double with a small exponent. -/
theorem within_ofScientific {n : Nat} (hn : n < 2 ^ 64) : Within 971 (UnpackedFloat.ofScientific .binary64 n 0) := by
  unfold UnpackedFloat.ofScientific
  split
  · trivial
  · have hbits : Format.binary64.mantissaBits = 53 := rfl
    have hmantissa : (n <<< 53) * 10 ^ (0 : Int).toNat < 2 ^ 117 := by
      rw [Nat.shiftLeft_eq, Int.toNat_zero]
      omega
    have hlow : ¬(0 : Int) < -((2 ^ Format.binary64.exponentBits : Int) + n.log2) := by
      have : (2 ^ Format.binary64.exponentBits : Int) = 2048 := rfl
      omega
    rw [if_neg (by decide), if_neg hlow, if_pos (by decide)]
    simp only [hbits, UnpackedFloat.mul]
    generalize n <<< 53 * 10 ^ (0 : Int).toNat = m at hmantissa
    exact (within_roundWithAccuracy hmantissa _ _ _).mono (by decide)

/-! ### Packing -/

/-- A packed double whose exponent bits are not all ones is zero or finite, and those bits give its exponent. -/
theorem within_unpack {b : BitVec (Format.numBits .binary64)} (hbits : (unpackExponent b).toNat < 2047)
    (hlow : -1074 ≤ top) (hexp : ((unpackExponent b).toNat : Int) ≤ top + 1075) :
    Within top (UnpackedFloat.unpack .binary64 b) := by
  have hones : unpackExponent b ≠ -1#_ := by
    intro h
    rw [h] at hbits
    exact absurd hbits (by decide)
  unfold UnpackedFloat.unpack
  simp only [hones, if_false, exponentBias_binary64]
  split
  · rename_i hzero
    split
    · trivial
    · simp only [Within, hzero, BitVec.toNat_ofNat]
      omega
  · simp only [Within]
    omega

/-- What packing keeps: a double with an exponent of 971 at most is not packed as an infinity. -/
theorem Within.unpack_pack (h : Within top f) (hlow : -1074 ≤ top) (hhigh : top ≤ 971) :
    Within top (UnpackedFloat.unpack .binary64 (UnpackedFloat.pack .binary64 f)) := by
  cases f with
  | infinity s => exact h.elim
  | notANumber => exact h.elim
  | zero s =>
    have hexponent : (unpackExponent (UnpackedFloat.pack .binary64 (.zero s))).toNat = 0 := by
      simp [UnpackedFloat.pack, packedZero]
    exact within_unpack (by omega) hlow (by omega)
  | finite s m e hm =>
    have htop : e ≤ top := h
    have hbias := exponentBias_binary64
    have hexponent : ((unpackExponent (UnpackedFloat.pack .binary64 (.finite s m e hm))).toNat : Int) ≤ max 0 (e + 1075) := by
      simp only [UnpackedFloat.pack, hbias]
      split
      · omega
      · split
        · rw [unpackExponent_packComponents, BitVec.toNat_ofNat]
          omega
        · rw [unpackExponent_packComponents, BitVec.toNat_ofNat]
          omega
    exact within_unpack (by omega) hlow (by omega)

/-- The parts of a finite double that was unpacked: 53 bits of mantissa, and an exponent that packing accepts. -/
theorem unpack_finite {b : BitVec (Format.numBits .binary64)} {s : Sign} {m : Nat} {e : Int} {hm : 0 < m}
    (h : UnpackedFloat.unpack .binary64 b = .finite s m e hm) : m < 2 ^ 53 ∧ e ≤ 971 := by
  have hbits : (unpackExponent b).toNat < 2 ^ 11 := (unpackExponent b).isLt
  unfold UnpackedFloat.unpack at h
  simp only [exponentBias_binary64] at h
  split at h
  · split at h <;> cases h
  · rename_i hones
    have hones' : (unpackExponent b).toNat ≠ 2047 := by
      intro hall
      exact hones (BitVec.eq_of_toNat_eq hall)
    split at h
    · rename_i hzero
      split at h
      · cases h
      · cases h
        have hexponent : (unpackExponent b).toNat = 0 := by rw [hzero]; rfl
        have hmantissa : (unpackMantissa b).toNat < 2 ^ 52 := (unpackMantissa b).isLt
        exact ⟨by omega, by omega⟩
    · cases h
      exact ⟨(1#1 ++ unpackMantissa b).isLt, by omega⟩

/-! ### Doubles -/

/-- A finite double unpacks with an exponent that packing accepts. -/
theorem within_of_isFinite {x : Float} (h : x.isFinite = true) : Within 971 x.toModel.unpack := by
  have hx : x.toModel.unpack.isFinite = true := h
  cases hunpacked : x.toModel.unpack with
  | zero s => trivial
  | finite s m e hm => exact (unpack_finite hunpacked).2
  | infinity s =>
    rw [hunpacked] at hx
    cases hx
  | notANumber =>
    rw [hunpacked] at hx
    cases hx

/-- A packed double is finite when its exponent is 971 at most. -/
theorem Within.isFinite_ofModel_pack (h : Within 971 f) : (Float.ofModel (Float.Model.pack f)).isFinite = true :=
  (h.unpack_pack (by decide) (by decide)).isFinite

/-- The opposite of a finite double is finite. -/
theorem isFinite_neg {x : Float} (h : x.isFinite = true) : x.neg.isFinite = true :=
  (within_of_isFinite h).neg.isFinite_ofModel_pack

/-- The product with one of a double with a small exponent is finite. -/
theorem isFinite_mul_one {x : Float} (h : Within 232 x.toModel.unpack) :
    (x * Float.ofBits 0x3FF0000000000000).isFinite = true := by
  have hone : (Float.ofBits 0x3FF0000000000000).toModel.unpack = .finite .positive (2 ^ 52) (-52) (by decide) := by rfl
  have hproduct : Within 971 (mul .binary64 x.toModel.unpack (.finite .positive (2 ^ 52) (-52) (by decide))) := by
    cases hunpacked : x.toModel.unpack with
    | infinity s =>
      rw [hunpacked] at h
      exact h.elim
    | notANumber =>
      rw [hunpacked] at h
      exact h.elim
    | zero s => trivial
    | finite s m e hm =>
      rw [hunpacked] at h
      have hexp : e ≤ 232 := h
      have hmantissa : m * 2 ^ 52 < 2 ^ 105 := by
        have := (unpack_finite hunpacked).1
        omega
      exact (within_roundWithAccuracy hmantissa _ _ _).mono (by omega)
  rw [← hone] at hproduct
  exact hproduct.isFinite_ofModel_pack

/-- The double of a word is finite. -/
theorem isFinite_ofNat {n : Nat} (hn : n < 2 ^ 64) : (Float.ofNat n).isFinite = true := by
  unfold Float.ofNat
  change (Float.ofScientific n false 0).isFinite = true
  unfold Float.ofScientific
  split
  · exact isFinite_mul_one ((within_ofNat n.toUInt64.toNat_lt).unpack_pack (by decide) (by decide))
  · exact (within_ofScientific hn).isFinite_ofModel_pack

end Double

/-- The double of a JSON number is finite. -/
theorem JsonNumber.isFinite_toFloat (n : JsonNumber) : n.toFloat.isFinite = true := by
  cases n with
  | float x finite => exact finite
  | integer n fits =>
    cases n with
    | ofNat n => exact Double.isFinite_ofNat (Int.ofNat_lt.1 fits.2)
    | negSucc n => exact Double.isFinite_neg (Double.isFinite_ofNat (by omega))

end Conform
