import Mathlib.Algebra.Group.Nat.Defs
import Mathlib.Data.Nat.Log
import TypeFlow.Binary.Basic

/-!
# Rounding keeps the order

Integers are compared as 64-bit floating-point numbers. Rounding to the nearest number is monotone,
and a rounded number survives being packed into bits, so two integers compare in the same way before
and after, unless they are rounded to the same number.
-/

namespace TypeFlow

namespace Binary

variable {f : Format} {a b d e m n : Nat} {negative : Bool}

theorem twoPow_eq (n : Nat) : twoPow n = 2 ^ n := rfl

/-! ### The nearest whole number -/

theorem div_le_nearestEven (a d : Nat) : a / d ≤ nearestEven a d := by
  unfold nearestEven
  grind

theorem nearestEven_le_succ (a d : Nat) : nearestEven a d ≤ a / d + 1 := by
  unfold nearestEven
  grind

theorem nearestEven_mono (h : a ≤ b) : nearestEven a d ≤ nearestEven b d := by
  rcases (Nat.div_le_div_right h : a / d ≤ b / d).lt_or_eq with hlt | heq
  · calc nearestEven a d ≤ a / d + 1 := nearestEven_le_succ a d
      _ ≤ b / d := hlt
      _ ≤ nearestEven b d := div_le_nearestEven b d
  · have hmod : a % d ≤ b % d := by
      have ha := Nat.div_add_mod a d
      have hb := Nat.div_add_mod b d
      rw [heq] at ha
      omega
    unfold nearestEven
    grind

theorem nearestEven_mul (hd : 0 < d) (n : Nat) : nearestEven (n * d) d = n := by
  simp [nearestEven, hd]

/-! ### Rounding to the bits of a format -/

namespace Format

variable {exponent fraction : Nat}

/-- Bits of a magnitude that do not fit into the significand. -/
def excess (f : Format) (m : Nat) : Nat := m.log2 + 1 - f.precision

/-- A magnitude has no more significant bits than the format. -/
def Representable (f : Format) (m : Nat) : Prop := ∃ c s, c < 2 ^ f.precision ∧ m = c * 2 ^ s

section

variable (hf : 1 ≤ f.precision)

include hf

/-- The bits that do not fit are rounded away. -/
theorem roundRatio_one (m : Nat) :
    f.roundRatio m 1 = nearestEven m (2 ^ f.excess m) * 2 ^ f.excess m := by
  simp only [roundRatio, twoPow_eq, Nat.div_one, Nat.one_mul, excess]
  split
  · next h =>
    have hexcess : m.log2 + 1 - f.precision = 0 := by
      rcases Nat.eq_zero_or_pos m with rfl | hm
      · rw [Nat.log2_zero]
        omega
      · have := (Nat.log2_lt hm.ne').mpr h
        omega
    rw [hexcess, Nat.pow_zero, Nat.mul_one]
  · rfl

theorem two_pow_log2_le_roundRatio (hm : m ≠ 0) : 2 ^ m.log2 ≤ f.roundRatio m 1 := by
  have hpow : 2 ^ m.log2 = 2 ^ (m.log2 - f.excess m) * 2 ^ f.excess m := by
    rw [← Nat.pow_add, Nat.sub_add_cancel]
    unfold excess
    omega
  rw [roundRatio_one hf, hpow]
  refine Nat.mul_le_mul_right _ ?_
  calc 2 ^ (m.log2 - f.excess m) = nearestEven (2 ^ m.log2) (2 ^ f.excess m) := by
        rw [hpow, nearestEven_mul (Nat.two_pow_pos _)]
    _ ≤ nearestEven m (2 ^ f.excess m) := nearestEven_mono (Nat.log2_self_le hm)

theorem nearestEven_le_two_pow (m : Nat) :
    nearestEven m (2 ^ f.excess m) ≤ 2 ^ (m.log2 + 1 - f.excess m) := by
  have hpow : 2 ^ (m.log2 + 1) = 2 ^ (m.log2 + 1 - f.excess m) * 2 ^ f.excess m := by
    rw [← Nat.pow_add, Nat.sub_add_cancel]
    unfold excess
    omega
  calc nearestEven m (2 ^ f.excess m)
      ≤ nearestEven (2 ^ (m.log2 + 1)) (2 ^ f.excess m) := nearestEven_mono Nat.lt_log2_self.le
    _ = 2 ^ (m.log2 + 1 - f.excess m) := by rw [hpow, nearestEven_mul (Nat.two_pow_pos _)]

theorem roundRatio_le_two_pow (m : Nat) : f.roundRatio m 1 ≤ 2 ^ (m.log2 + 1) := by
  rw [roundRatio_one hf]
  calc nearestEven m (2 ^ f.excess m) * 2 ^ f.excess m
      ≤ 2 ^ (m.log2 + 1 - f.excess m) * 2 ^ f.excess m :=
        Nat.mul_le_mul_right _ (nearestEven_le_two_pow hf m)
    _ = 2 ^ (m.log2 + 1) := by
      rw [← Nat.pow_add, Nat.sub_add_cancel]
      unfold excess
      omega

/-- Larger magnitudes are not rounded to smaller ones. -/
theorem roundRatio_mono (h : m ≤ n) : f.roundRatio m 1 ≤ f.roundRatio n 1 := by
  rcases Nat.eq_zero_or_pos m with rfl | hm
  · have hzero : f.roundRatio 0 1 = 0 := by simp [roundRatio_one hf, nearestEven]
    rw [hzero]
    exact Nat.zero_le _
  have hn : n ≠ 0 := by omega
  have hlog := (Nat.le_log2 hn).mpr ((Nat.log2_self_le hm.ne').trans h)
  rcases hlog.lt_or_eq with hlt | heq
  · -- A power of two lies between the two magnitudes, and it is kept by rounding.
    calc f.roundRatio m 1 ≤ 2 ^ (m.log2 + 1) := roundRatio_le_two_pow hf m
      _ ≤ 2 ^ n.log2 := Nat.pow_le_pow_right (by decide) hlt
      _ ≤ f.roundRatio n 1 := two_pow_log2_le_roundRatio hf hn
  · have hexcess : f.excess m = f.excess n := by rw [excess, excess, heq]
    rw [roundRatio_one hf, roundRatio_one hf, hexcess]
    exact Nat.mul_le_mul_right _ (nearestEven_mono h)

theorem roundRatio_representable (m : Nat) : f.Representable (f.roundRatio m 1) := by
  have hle : nearestEven m (2 ^ f.excess m) ≤ 2 ^ f.precision := by
    refine (nearestEven_le_two_pow hf m).trans (Nat.pow_le_pow_right (by decide) ?_)
    unfold excess
    omega
  rw [roundRatio_one hf]
  rcases hle.lt_or_eq with hlt | heq
  · exact ⟨_, _, hlt, rfl⟩
  · refine ⟨1, f.precision + f.excess m, Nat.one_lt_two_pow (by omega), ?_⟩
    rw [heq, Nat.one_mul, ← Nat.pow_add]

end

/-! ### Bits -/

/-- The fields of a bit pattern are read back. -/
theorem decode_pack (hexponent : exponent < 2 ^ f.exponentBits)
    (hfraction : fraction < 2 ^ f.fractionBits) (negative : Bool) :
    f.decode (f.pack negative exponent fraction) =
      if exponent = f.topExponent then
        if fraction = 0 then .infinite negative else .nan negative fraction
      else if exponent = 0 then .finite negative fraction
      else .finite negative ((2 ^ f.fractionBits + fraction) * 2 ^ (exponent - 1)) := by
  have hpos : 0 < 2 ^ f.fractionBits := Nat.two_pow_pos _
  have hhigh (sign : Nat) : (sign * 2 ^ f.exponentBits + exponent) / 2 ^ f.exponentBits = sign := by
    rw [Nat.mul_comm, Nat.mul_add_div (Nat.two_pow_pos _), Nat.div_eq_of_lt hexponent, Nat.add_zero]
  have hlow (high : Nat) : (high * 2 ^ f.fractionBits + fraction) / 2 ^ f.fractionBits = high := by
    rw [Nat.mul_comm, Nat.mul_add_div hpos, Nat.div_eq_of_lt hfraction, Nat.add_zero]
  have hnegative : ((if negative then 1 else 0) % 2 == 1) = negative := by cases negative <;> rfl
  simp only [decode, pack, twoPow_eq, Nat.pow_add, ← Nat.div_div_eq_div_mul, hlow, hhigh,
    Nat.mul_add_mod_self_right, Nat.mod_eq_of_lt hfraction, Nat.mod_eq_of_lt hexponent, hnegative]

theorem pack_lt (hexponent : exponent < 2 ^ f.exponentBits)
    (hfraction : fraction < 2 ^ f.fractionBits) (negative : Bool) :
    f.pack negative exponent fraction < 2 ^ (1 + f.exponentBits + f.fractionBits) := by
  have hsign : (if negative then 1 else 0) * 2 ^ f.exponentBits + exponent <
      2 ^ (1 + f.exponentBits) := by
    rw [Nat.pow_add]
    cases negative <;> simp <;> omega
  rw [Nat.pow_add]
  calc f.pack negative exponent fraction
      < ((if negative then 1 else 0) * 2 ^ f.exponentBits + exponent + 1) * 2 ^ f.fractionBits := by
        simp only [pack, twoPow_eq, Nat.add_mul]
        omega
    _ ≤ 2 ^ (1 + f.exponentBits) * 2 ^ f.fractionBits := Nat.mul_le_mul_right _ hsign

section

variable (hf : 1 ≤ f.precision) (he : 2 ≤ f.exponentBits)

include hf he

/-- The fields that a magnitude is packed into hold all of it. -/
theorem exists_fields (hm : m < f.overflow) (hrep : f.Representable m) (negative : Bool) :
    ∃ exponent fraction, exponent < f.topExponent ∧ fraction < 2 ^ f.fractionBits ∧
      f.encode (.finite negative m) = f.pack negative exponent fraction ∧
      m = if exponent = 0 then fraction
        else (2 ^ f.fractionBits + fraction) * 2 ^ (exponent - 1) := by
  have htop : 3 ≤ f.topExponent := by
    have : 2 ^ 2 ≤ 2 ^ f.exponentBits := Nat.pow_le_pow_right (by decide) he
    rw [topExponent, twoPow_eq]
    omega
  rw [encode, if_neg (Nat.not_le.mpr hm)]
  by_cases hsmall : m < twoPow f.fractionBits
  · exact ⟨0, m, by omega, hsmall, if_pos hsmall, rfl⟩
  · have hlarge : 2 ^ f.fractionBits ≤ m := Nat.not_lt.mp hsmall
    have hne : m ≠ 0 := by
      have := Nat.two_pow_pos f.fractionBits
      omega
    have hbits := (Nat.le_log2 hne).mpr hlarge
    obtain ⟨shift, hshift⟩ : ∃ shift, m.log2 = f.fractionBits + shift :=
      ⟨m.log2 - f.fractionBits, by omega⟩
    have hexponent : shift + 1 < f.topExponent := by
      rw [overflow, twoPow_eq, ← Nat.log2_lt hne] at hm
      have : f.fractionBits = f.precision - 1 := rfl
      omega
    -- No bits are lost below the significand, since there are not more than fit into it.
    have hdvd : 2 ^ shift ∣ m := by
      obtain ⟨c, s, hc, rfl⟩ := hrep
      refine Nat.dvd_trans (Nat.pow_dvd_pow 2 ?_) (Nat.dvd_mul_left _ c)
      have hlt : c * 2 ^ s < 2 ^ (f.precision + s) := by
        rw [Nat.pow_add]
        exact Nat.mul_lt_mul_of_pos_right hc (Nat.two_pow_pos s)
      have := (Nat.log2_lt hne).mpr hlt
      have : f.fractionBits = f.precision - 1 := rfl
      omega
    have hlow : 2 ^ f.fractionBits ≤ m / 2 ^ shift := by
      rw [Nat.le_div_iff_mul_le (Nat.two_pow_pos _), ← Nat.pow_add, ← hshift]
      exact Nat.log2_self_le hne
    have hhigh : m / 2 ^ shift < 2 ^ f.fractionBits * 2 := by
      rw [Nat.div_lt_iff_lt_mul (Nat.two_pow_pos _), Nat.mul_right_comm, ← Nat.pow_add, ← hshift]
      exact Nat.lt_log2_self
    have hshift' : m.log2 - f.fractionBits = shift := by omega
    refine ⟨shift + 1, m / 2 ^ shift - 2 ^ f.fractionBits, hexponent, by omega, ?_, ?_⟩
    · rw [if_neg hsmall]
      simp only [hshift', twoPow_eq]
    · rw [if_neg (Nat.succ_ne_zero _), Nat.add_sub_cancel, Nat.add_sub_cancel' hlow,
        Nat.div_mul_cancel hdvd]

/-- A finite number that fits into the format is read back from its bits. -/
theorem decode_encode (hm : m < f.overflow) (hrep : f.Representable m) (negative : Bool) :
    f.decode (f.encode (.finite negative m)) = .finite negative m := by
  obtain ⟨exponent, fraction, hexponent, hfraction, hencode, hvalue⟩ :=
    exists_fields hf he hm hrep negative
  have hbits := hexponent.trans_le (Nat.sub_le _ _)
  rw [hencode, decode_pack hbits hfraction, if_neg hexponent.ne, hvalue]
  split <;> rfl

theorem encode_lt (hm : m < f.overflow) (hrep : f.Representable m) (negative : Bool) :
    f.encode (.finite negative m) < 2 ^ (1 + f.exponentBits + f.fractionBits) := by
  obtain ⟨exponent, fraction, hexponent, hfraction, hencode, -⟩ :=
    exists_fields hf he hm hrep negative
  rw [hencode]
  exact pack_lt (hexponent.trans_le (Nat.sub_le _ _)) hfraction negative

end

end Format

/-! ### Order -/

/-- What an integer is rounded to, in units of the format. -/
def Format.nearest (f : Format) (n : Int) : Int :=
  Datum.signed (n < 0) (f.roundRatio (n.natAbs * twoPow f.oneBits) 1)

theorem Format.roundRatio_pos (hf : 1 ≤ f.precision) (hn : n ≠ 0) :
    0 < f.roundRatio (n * twoPow f.oneBits) 1 := by
  have hne : n * twoPow f.oneBits ≠ 0 := Nat.mul_ne_zero hn (Nat.two_pow_pos _).ne'
  exact (Nat.two_pow_pos _).trans_le (two_pow_log2_le_roundRatio hf hne)

theorem Format.roundRatio_lt_overflow (hf : 1 ≤ f.precision) (hn : n ≤ 2 ^ b)
    (hb : b + f.oneBits + 1 < f.precision + f.topExponent - 2) :
    f.roundRatio (n * twoPow f.oneBits) 1 < f.overflow := by
  have hle : n * twoPow f.oneBits ≤ 2 ^ (b + f.oneBits) := by
    rw [Nat.pow_add, twoPow_eq]
    exact Nat.mul_le_mul_right _ hn
  calc f.roundRatio (n * twoPow f.oneBits) 1
      ≤ f.roundRatio (2 ^ (b + f.oneBits)) 1 := roundRatio_mono hf hle
    _ ≤ 2 ^ ((2 ^ (b + f.oneBits)).log2 + 1) := roundRatio_le_two_pow hf _
    _ < f.overflow := by
      rw [Nat.log2_two_pow]
      exact Nat.pow_lt_pow_right (by decide) hb

/-- Rounding keeps the order of integers, unless it makes them equal. -/
theorem Format.nearest_mono (hf : 1 ≤ f.precision) {k l : Int} (h : k ≤ l) :
    f.nearest k ≤ f.nearest l := by
  have hmono {i j : Nat} (hij : i ≤ j) :
      f.roundRatio (i * twoPow f.oneBits) 1 ≤ f.roundRatio (j * twoPow f.oneBits) 1 :=
    roundRatio_mono hf (Nat.mul_le_mul_right _ hij)
  unfold nearest Datum.signed
  by_cases hk : k < 0
  · by_cases hl : l < 0
    · have := hmono (show l.natAbs ≤ k.natAbs by omega)
      simp only [hk, decide_true, if_true]
      omega
    · simp only [hk, hl, decide_true, decide_false, if_true, Bool.false_eq_true, if_false]
      omega
  · have hl : ¬l < 0 := by omega
    have := hmono (show k.natAbs ≤ l.natAbs by omega)
    simp only [hl, decide_false, Bool.false_eq_true, if_false]
    omega

/-- Integers that are rounded to the same number have the same datum. -/
theorem Format.ofInt_eq_of_nearest_eq (hf : 1 ≤ f.precision) {k l : Int}
    (h : f.nearest k = f.nearest l) : f.ofInt k = f.ofInt l := by
  have hpos {i : Int} (hi : i < 0) : 0 < f.roundRatio (i.natAbs * twoPow f.oneBits) 1 :=
    roundRatio_pos hf (by omega)
  unfold nearest Datum.signed at h
  have hsign : decide (k < 0) = decide (l < 0) ∧ f.roundRatio (k.natAbs * twoPow f.oneBits) 1 =
        f.roundRatio (l.natAbs * twoPow f.oneBits) 1 := by
    by_cases hk : k < 0 <;> by_cases hl : l < 0 <;>
      simp only [hk, hl, decide_true, decide_false, if_true, Bool.false_eq_true, if_false] at h ⊢
    · exact ⟨trivial, by omega⟩
    · have := hpos hk
      omega
    · have := hpos hl
      omega
    · exact ⟨trivial, by omega⟩
  rw [ofInt, ofInt, rounded, rounded, hsign.1, hsign.2]

end Binary

open Binary Format

namespace Double

variable {k l : Int}

/-- A 64-bit integer is rounded to a finite number. -/
theorem datum_ofInt (hk : k.natAbs ≤ 2 ^ 63) : (ofInt k).datum =
    .finite (k < 0) (Format.double.roundRatio (k.natAbs * twoPow Format.double.oneBits) 1) := by
  have hf : 1 ≤ Format.double.precision := by decide
  have hrep := Format.roundRatio_representable hf (k.natAbs * twoPow Format.double.oneBits)
  have hfinite := Format.roundRatio_lt_overflow hf hk (by decide)
  have hbits : 1 + Format.double.exponentBits + Format.double.fractionBits = 64 := by decide
  have hlt := Format.encode_lt hf (by decide) hfinite hrep (k < 0)
  rw [hbits] at hlt
  rw [datum, ofInt, Format.ofInt, Format.rounded, if_neg (Nat.not_le.mpr hfinite), ofDatum]
  simp only [UInt64.toNat_ofNat']
  rw [Nat.mod_eq_of_lt hlt, Format.decode_encode hf (by decide) hfinite hrep]

/-- Integers compare as their nearest numbers do, unless these are the same. -/
theorem lt_ofInt (hk : k.natAbs ≤ 2 ^ 63) (hl : l.natAbs ≤ 2 ^ 63)
    (hkl : ofInt k = ofInt l → k = l) : (ofInt k).lt (ofInt l) = decide (k < l) := by
  have hlt : (ofInt k).lt (ofInt l) =
      decide (double.nearest k < double.nearest l) := by
    rw [lt, datum_ofInt hk, datum_ofInt hl]
    rfl
  have hf : 1 ≤ double.precision := by decide
  rw [hlt, decide_eq_decide]
  constructor
  · intro h
    by_contra hnot
    have := nearest_mono hf (Int.not_lt.mp hnot)
    omega
  · intro h
    have hle := nearest_mono hf h.le
    refine lt_of_le_of_ne hle fun heq => ?_
    have : k = l := hkl (congrArg ofDatum (ofInt_eq_of_nearest_eq hf heq))
    omega

theorem le_ofInt (hk : k.natAbs ≤ 2 ^ 63) (hl : l.natAbs ≤ 2 ^ 63)
    (hkl : ofInt k = ofInt l → k = l) : (ofInt k).le (ofInt l) = decide (k ≤ l) := by
  have hle : (ofInt k).le (ofInt l) = !(ofInt l).lt (ofInt k) := by
    rw [le, lt, Datum.le, datum_ofInt hk, datum_ofInt hl]
    simp only [Datum.lt, Datum.same]
    grind
  rw [hle, lt_ofInt hl hk fun h => (hkl h.symm).symm, ← decide_not, decide_eq_decide, Int.not_lt]

end Double

end TypeFlow
