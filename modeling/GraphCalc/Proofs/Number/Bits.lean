import GraphCalc.Number.Binary64
import Mathlib

/-! # Doubles and their bits

What the tests and the sign operations of doubles say of the bits. Of the 64 bits of a double the
first is its sign; the other 63, read as a natural, are its *magnitude*: zero for the zeros,
`infinityBits` for the infinities, larger for the undefined value. Main statements:

* `toBits_injective`, `toBits_ofBits`: a double is determined by its bits, and all bits up to those
  of infinity are the bits of a double;
* `isFinite_iff`, `isNaN_iff`, `isInf_iff`, `beq_zero_iff`: the tests in terms of the magnitude;
* `toBits_abs`, `magnitude_abs`: without its sign a double has the bits of its magnitude;
* `beq_self`: every double but the undefined value equals itself.
-/

namespace GraphCalc.Binary64
open Float.Model Float.Model.UnpackedFloat
set_option autoImplicit false

/-! ## Fields of the bits -/

/-- The bits of infinity. -/
def infinityBits : Nat := 0x7ff * 2 ^ 52

/-- The bits without the sign. -/
def magnitude (v : Float) : Nat := v.toBits.toNat % 2 ^ 63

/-- The sign that is read off the bits. -/
def signOf (bits : Nat) : Sign := if bits < 2 ^ 63 then .positive else .negative

theorem unpackMantissa_toNat (b : BitVec 64) :
    (@unpackMantissa Format.binary64 b).toNat = b.toNat % 2 ^ 52 := by
  simp [unpackMantissa, BitVec.extractLsb_toNat]

theorem unpackExponent_toNat (b : BitVec 64) :
    (@unpackExponent Format.binary64 b).toNat = b.toNat / 2 ^ 52 % 2 ^ 11 := by
  simp [unpackExponent, BitVec.extractLsb_toNat, Nat.shiftRight_eq_div_pow]

theorem unpackMantissa_eq_zero_iff (b : BitVec 64) :
    @unpackMantissa Format.binary64 b = 0#_ ↔ b.toNat % 2 ^ 52 = 0 := by
  rw [← BitVec.toNat_inj, unpackMantissa_toNat]
  simp

theorem unpackExponent_eq_zero_iff (b : BitVec 64) :
    @unpackExponent Format.binary64 b = 0#_ ↔ b.toNat / 2 ^ 52 % 2 ^ 11 = 0 := by
  rw [← BitVec.toNat_inj, unpackExponent_toNat]
  simp

theorem unpackExponent_eq_ones_iff (b : BitVec 64) :
    @unpackExponent Format.binary64 b = -1#_ ↔ b.toNat / 2 ^ 52 % 2 ^ 11 = 2 ^ 11 - 1 := by
  rw [← BitVec.toNat_inj, unpackExponent_toNat]
  simp [BitVec.neg_one_eq_allOnes]

/-- The mantissa with the leading bit that is not written. -/
theorem implicitMantissa_toNat (b : BitVec 64) :
    (1#1 ++ @unpackMantissa Format.binary64 b).toNat = b.toNat % 2 ^ 52 + 2 ^ 52 := by
  rw [BitVec.toNat_append, ← Nat.shiftLeft_add_eq_or_of_lt (BitVec.isLt _), unpackMantissa_toNat]
  simp [Nat.shiftLeft_eq, Nat.add_comm]

theorem ofBitVec_unpackSign (b : BitVec 64) :
    Sign.ofBitVec (@unpackSign Format.binary64 b) = signOf b.toNat := by
  have hlt := b.isLt
  have hsign : (@unpackSign Format.binary64 b).toNat = b.toNat / 2 ^ 63 := by
    simp [unpackSign, BitVec.extractLsb_toNat, Nat.shiftRight_eq_div_pow]
    omega
  have hzero : @unpackSign Format.binary64 b = 0#1 ↔ b.toNat < 2 ^ 63 := by
    rw [← BitVec.toNat_inj, hsign, BitVec.toNat_zero]
    omega
  simp only [Sign.ofBitVec, signOf, hzero]

/-- The bits that a sign stands for. -/
def signBits : Sign → Nat
  | .positive => 0
  | .negative => 2 ^ 63

theorem packComponents_toNat (s : Sign) (e : BitVec 11) (m : BitVec 52) :
    (packComponents Format.binary64 s e m : BitVec 64).toNat =
      signBits s + e.toNat * 2 ^ 52 + m.toNat := by
  unfold packComponents
  rw [BitVec.toNat_append, ← Nat.shiftLeft_add_eq_or_of_lt m.isLt, BitVec.toNat_append,
    ← Nat.shiftLeft_add_eq_or_of_lt e.isLt]
  cases s <;> simp [Nat.shiftLeft_eq, Sign.toBitVec, signBits]
  omega

/-! ## The five kinds of doubles -/

/-- What the bits stand for, by their magnitude. -/
theorem unpack_cases (b : BitVec 64) :
    (b.toNat % 2 ^ 63 = 0 ∧ UnpackedFloat.unpack Format.binary64 b = .zero (signOf b.toNat)) ∨
    (0 < b.toNat % 2 ^ 63 ∧ b.toNat % 2 ^ 63 < 2 ^ 52 ∧
      ∃ h, UnpackedFloat.unpack Format.binary64 b =
        .finite (signOf b.toNat) (b.toNat % 2 ^ 52) (-1074) h) ∨
    (2 ^ 52 ≤ b.toNat % 2 ^ 63 ∧ b.toNat % 2 ^ 63 < infinityBits ∧
      ∃ h, UnpackedFloat.unpack Format.binary64 b =
        .finite (signOf b.toNat) (b.toNat % 2 ^ 52 + 2 ^ 52)
          ((b.toNat % 2 ^ 63 / 2 ^ 52 : Nat) - 1075) h) ∨
    (b.toNat % 2 ^ 63 = infinityBits ∧
      UnpackedFloat.unpack Format.binary64 b = .infinity (signOf b.toNat)) ∨
    (infinityBits < b.toNat % 2 ^ 63 ∧ UnpackedFloat.unpack Format.binary64 b = .notANumber) := by
  unfold UnpackedFloat.unpack
  simp only [ofBitVec_unpackSign b, unpackExponent_eq_ones_iff b, unpackExponent_eq_zero_iff b,
    unpackMantissa_eq_zero_iff b, unpackMantissa_toNat b, unpackExponent_toNat b,
    implicitMantissa_toNat b]
  have hbias : ((Format.exponentBias Format.binary64 : Nat) : Int) = 1023 := rfl
  have hlt := b.isLt
  unfold infinityBits
  rcases Nat.eq_zero_or_pos (b.toNat % 2 ^ 63) with h0 | hpos
  · left
    rw [if_neg (by omega), if_pos (by omega), dif_pos (by omega)]
    exact ⟨h0, rfl⟩
  rcases Nat.lt_or_ge (b.toNat % 2 ^ 63) (2 ^ 52) with h1 | h1
  · right; left
    rw [if_neg (by omega), if_pos (by omega), dif_neg (by omega)]
    have hexponent : b.toNat / 2 ^ 52 % 2 ^ 11 = 0 := by omega
    refine ⟨hpos, h1, by omega, ?_⟩
    congr 1
    rw [hexponent, hbias]
    rfl
  rcases Nat.lt_or_ge (b.toNat % 2 ^ 63) (0x7ff * 2 ^ 52) with h2 | h2
  · right; right; left
    rw [if_neg (by omega), if_neg (by omega)]
    have hexponent : b.toNat / 2 ^ 52 % 2 ^ 11 = b.toNat % 2 ^ 63 / 2 ^ 52 := by omega
    refine ⟨h1, h2, by omega, ?_⟩
    congr 1
    rw [hexponent, hbias]
    rfl
  rcases Nat.eq_or_lt_of_le h2 with h3 | h3
  · right; right; right; left
    rw [if_pos (by omega), if_pos (by omega)]
    exact ⟨h3.symm, rfl⟩
  · right; right; right; right
    rw [if_pos (by omega), if_neg (by omega)]
    exact ⟨h3, rfl⟩

theorem pack_zero_toNat (s : Sign) :
    (UnpackedFloat.pack Format.binary64 (.zero s) : BitVec 64).toNat = signBits s := by
  show (packComponents Format.binary64 s 0 0 : BitVec 64).toNat = _
  rw [packComponents_toNat]
  rfl

theorem pack_infinity_toNat (s : Sign) :
    (UnpackedFloat.pack Format.binary64 (.infinity s) : BitVec 64).toNat =
      signBits s + infinityBits := by
  show (packComponents Format.binary64 s (-1#_) 0 : BitVec 64).toNat = _
  rw [packComponents_toNat]
  rfl

/-- A mantissa without its top bit belongs to the least exponent and is written as it is. -/
theorem pack_subnormal_toNat (s : Sign) {m : Nat} (h : 0 < m) (hm : m < 2 ^ 52) :
    (UnpackedFloat.pack Format.binary64 (.finite s m (-1074) h) : BitVec 64).toNat =
      signBits s + m := by
  have hlog : m.log2 < 52 := (Nat.log2_lt (by omega)).mpr hm
  unfold UnpackedFloat.pack
  have hmantissa : (BitVec.ofNat 52 m).toNat = m := by
    rw [BitVec.toNat_ofNat, Nat.mod_eq_of_lt hm]
  rw [if_neg (by decide), if_neg (by show ¬ m.log2 + 1 = 53; omega), packComponents_toNat,
    hmantissa]
  simp

/-- The top bit of a mantissa is left out, and the exponent is written above the others. -/
theorem pack_normal_toNat (s : Sign) {m : Nat} {e : Int} (h : 0 < m) (hm : 2 ^ 52 ≤ m)
    (hm' : m < 2 ^ 53) (he : -1074 ≤ e) (he' : e ≤ 971) :
    (UnpackedFloat.pack Format.binary64 (.finite s m e h) : BitVec 64).toNat =
      signBits s + (e + 1075).toNat * 2 ^ 52 + (m - 2 ^ 52) := by
  have hlog : m.log2 = 52 := by
    have h1 : m.log2 < 53 := (Nat.log2_lt (by omega)).mpr hm'
    have h2 : 52 ≤ m.log2 := (Nat.le_log2 (by omega)).mpr hm
    omega
  have hbiased : (e + (Format.exponentBias Format.binary64 : Nat) + (52 : Nat)).toNat =
      (e + 1075).toNat := by
    have hbias : ((Format.exponentBias Format.binary64 : Nat) : Int) = 1023 := rfl
    omega
  unfold UnpackedFloat.pack
  simp only [hbiased]
  rw [if_neg (by omega), if_pos (by show m.log2 + 1 = 53; omega), packComponents_toNat]
  have hexponent : (BitVec.ofNat 11 (e + 1075).toNat).toNat = (e + 1075).toNat := by
    simp
    omega
  have hmantissa : (BitVec.ofNat 52 m).toNat = m - 2 ^ 52 := by
    simp
    omega
  rw [hexponent, hmantissa]

/-- The bits of a double read back as themselves, unless they are bits of the undefined value other
than the usual ones. -/
theorem pack_unpack {b : BitVec 64} (h : b.toNat % 2 ^ 63 ≤ infinityBits) :
    UnpackedFloat.pack Format.binary64 (UnpackedFloat.unpack Format.binary64 b) = b := by
  have hsign : signBits (signOf b.toNat) + b.toNat % 2 ^ 63 = b.toNat := by
    have hlt := b.isLt
    unfold signOf
    split <;> simp only [signBits] <;> omega
  apply BitVec.eq_of_toNat_eq
  rcases unpack_cases b with ⟨h0, hu⟩ | ⟨-, h1, hpos, hu⟩ | ⟨h1, h2, hpos, hu⟩ | ⟨h3, hu⟩ | ⟨h4, -⟩
  · rw [hu, pack_zero_toNat]
    omega
  · rw [hu, pack_subnormal_toNat _ _ (by omega)]
    omega
  · unfold infinityBits at h2
    rw [hu, pack_normal_toNat _ _ (by omega) (by omega) (by omega) (by omega)]
    omega
  · rw [hu, pack_infinity_toNat]
    omega
  · omega

/-! ## Bits and doubles -/

theorem toBits_injective {v w : Float} (h : v.toBits = w.toBits) : v = w := by
  obtain ⟨⟨bits, valid⟩⟩ := v
  obtain ⟨⟨bits', valid'⟩⟩ := w
  obtain rfl : bits = bits' := h
  rfl

theorem toBits_ofBits {b : UInt64} (h : b.toNat % 2 ^ 63 ≤ infinityBits) :
    (Float.ofBits b).toBits = b := by
  show UInt64.ofBitVec (UnpackedFloat.pack Format.binary64
    (UnpackedFloat.unpack Format.binary64 b.toBitVec)) = b
  rw [pack_unpack h]

theorem toBits_zero : (0.0 : Float).toBits = 0 := by decide

theorem kinds (v : Float) :
    (magnitude v = 0 ∧ v.toModel.unpack = .zero (signOf v.toBits.toNat)) ∨
    (0 < magnitude v ∧ magnitude v < infinityBits ∧
      ∃ m e h, v.toModel.unpack = .finite (signOf v.toBits.toNat) m e h) ∨
    (magnitude v = infinityBits ∧ v.toModel.unpack = .infinity (signOf v.toBits.toNat)) ∨
    (infinityBits < magnitude v ∧ v.toModel.unpack = .notANumber) := by
  rcases unpack_cases v.toBits.toBitVec with h | ⟨h1, h2, hpos, hu⟩ | ⟨h1, h2, hpos, hu⟩ | h | h
  · exact .inl h
  · have hlt : magnitude v < infinityBits := Nat.lt_trans h2 (by decide)
    exact .inr (.inl ⟨h1, hlt, _, _, hpos, hu⟩)
  · have hlt : 0 < magnitude v := Nat.lt_of_lt_of_le (by decide) h1
    exact .inr (.inl ⟨hlt, h2, _, _, hpos, hu⟩)
  · exact .inr (.inr (.inl h))
  · exact .inr (.inr (.inr h))

theorem isFinite_iff {v : Float} : v.isFinite = true ↔ magnitude v < infinityBits := by
  show v.toModel.unpack.isFinite = true ↔ _
  rcases kinds v with ⟨h, hu⟩ | ⟨-, h, _, _, _, hu⟩ | ⟨h, hu⟩ | ⟨h, hu⟩ <;> rw [hu] <;>
    simp [UnpackedFloat.isFinite, h]
  · decide
  · exact Nat.le_of_lt h

theorem isInf_iff {v : Float} : v.isInf = true ↔ magnitude v = infinityBits := by
  show v.toModel.unpack.isInf = true ↔ _
  rcases kinds v with ⟨h, hu⟩ | ⟨-, h, _, _, _, hu⟩ | ⟨h, hu⟩ | ⟨h, hu⟩ <;> rw [hu] <;>
    simp [UnpackedFloat.isInf, h]
  · decide
  · exact Nat.ne_of_lt h
  · exact Nat.ne_of_gt h

theorem isNaN_iff {v : Float} : v.isNaN = true ↔ infinityBits < magnitude v := by
  show v.toModel.unpack.isNaN = true ↔ _
  rcases kinds v with ⟨h, hu⟩ | ⟨-, h, _, _, _, hu⟩ | ⟨h, hu⟩ | ⟨h, hu⟩ <;> rw [hu] <;>
    simp [UnpackedFloat.isNaN, h]
  · exact Nat.le_of_lt h

theorem isNaN_of_isFinite {v : Float} (h : v.isFinite = true) : v.isNaN = false := by
  rw [Bool.eq_false_iff, ne_eq, isNaN_iff]
  exact Nat.not_lt_of_gt (isFinite_iff.mp h)

theorem magnitude_le {v : Float} (h : v.isNaN = false) : magnitude v ≤ infinityBits := by
  rwa [Bool.eq_false_iff, ne_eq, isNaN_iff, Nat.not_lt] at h

theorem isInf_of_not_isFinite {v : Float} (hnan : v.isNaN = false) (h : v.isFinite = false) :
    v.isInf = true := by
  have hle := magnitude_le hnan
  rw [Bool.eq_false_iff, ne_eq, isFinite_iff] at h
  rw [isInf_iff]
  omega

theorem beq_zero_iff {v : Float} : (v == 0.0) = true ↔ magnitude v = 0 := by
  show v.toModel.unpack.beq (0.0 : Float).toModel.unpack = true ↔ _
  have hzero : (0.0 : Float).toModel.unpack = .zero .positive := rfl
  rw [hzero]
  rcases kinds v with ⟨h, hu⟩ | ⟨h, -, _, _, _, hu⟩ | ⟨h, hu⟩ | ⟨h, hu⟩ <;> rw [hu] <;>
    cases signOf v.toBits.toNat <;> simp [UnpackedFloat.beq, UnpackedFloat.compare, h]
  all_goals first | decide | omega

theorem beq_self {v : Float} (h : v.isNaN = false) : (v == v) = true := by
  show v.toModel.unpack.beq v.toModel.unpack = true
  have hle := magnitude_le h
  rcases kinds v with ⟨-, hu⟩ | ⟨-, -, _, _, _, hu⟩ | ⟨-, hu⟩ | ⟨hlt, -⟩
  · rw [hu]
    rfl
  · rw [hu]
    cases signOf v.toBits.toNat <;> simp [UnpackedFloat.beq, UnpackedFloat.compare]
  · rw [hu]
    cases signOf v.toBits.toNat <;> rfl
  · exact absurd hlt (Nat.not_lt.mpr hle)

theorem isNegative_iff {v : Float} : isNegative v = true ↔ 2 ^ 63 ≤ v.toBits.toNat := by
  simp [isNegative, Nat.pow_eq]

/-! ## The sign -/

theorem toBits_abs {v : Float} (h : v.isNaN = false) : v.abs.toBits.toNat = magnitude v := by
  show (UnpackedFloat.pack Format.binary64
    (UnpackedFloat.unpack Format.binary64 v.toBits.toBitVec).abs : BitVec 64).toNat =
      v.toBits.toBitVec.toNat % 2 ^ 63
  have hle := magnitude_le h
  rcases unpack_cases v.toBits.toBitVec with
    ⟨h0, hu⟩ | ⟨-, h1, hpos, hu⟩ | ⟨h1, h2, hpos, hu⟩ | ⟨h3, hu⟩ | ⟨h4, -⟩
  · rw [hu, UnpackedFloat.abs, pack_zero_toNat, h0]
    rfl
  · rw [hu, UnpackedFloat.abs, pack_subnormal_toNat _ _ (by omega), signBits]
    omega
  · unfold infinityBits at h2
    rw [hu, UnpackedFloat.abs, pack_normal_toNat _ _ (by omega) (by omega) (by omega) (by omega),
      signBits]
    omega
  · rw [hu, UnpackedFloat.abs, pack_infinity_toNat, h3, signBits, Nat.zero_add]
  · exact absurd h4 (Nat.not_lt.mpr hle)

theorem magnitude_lt (v : Float) : magnitude v < 2 ^ 63 := Nat.mod_lt _ (by decide)

theorem magnitude_abs {v : Float} (h : v.isNaN = false) : magnitude v.abs = magnitude v := by
  rw [magnitude, toBits_abs h, Nat.mod_eq_of_lt (magnitude_lt v)]

theorem isNaN_abs {v : Float} (h : v.isNaN = false) : v.abs.isNaN = false := by
  rwa [Bool.eq_false_iff, ne_eq, isNaN_iff, magnitude_abs h, ← isNaN_iff, ← ne_eq,
    ← Bool.eq_false_iff]

theorem isFinite_abs {v : Float} (h : v.isNaN = false) : v.abs.isFinite = v.isFinite := by
  rw [Bool.eq_iff_iff, isFinite_iff, isFinite_iff, magnitude_abs h]

theorem isNegative_abs {v : Float} (h : v.isNaN = false) : isNegative v.abs = false := by
  rw [Bool.eq_false_iff, ne_eq, isNegative_iff, toBits_abs h]
  exact Nat.not_le.mpr (magnitude_lt v)

theorem magnitude_of_not_isNegative {v : Float} (h : isNegative v = false) :
    magnitude v = v.toBits.toNat := by
  rw [Bool.eq_false_iff, ne_eq, isNegative_iff] at h
  exact Nat.mod_eq_of_lt (Nat.not_le.mp h)

end GraphCalc.Binary64
