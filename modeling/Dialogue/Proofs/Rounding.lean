import Mathlib

/-!
# Rounding

A significand is shifted until it has 53 bits, or until its exponent is the least there is; of the
bits that are cut off, only where the number stands between two significands is kept. What comes of
it is the nearest double, and of two as near the even one. So are products and quotients of doubles.
-/

namespace Dialogue.Number

open Float.Model (Format UnpackedFloat pack totalExponent)
open Float.Model.UnpackedFloat

/-! ## Bits that are cut off -/

/-- Where `x` is when all of it but the significand `m` was cut off with an accuracy. -/
def Cut (x : ℚ) (m : ℕ) : Accuracy → Prop
  | .exact => x = m
  | .inexact .lt => m < x ∧ x < m + 1 / 2
  | .inexact .eq => x = m + 1 / 2
  | .inexact .gt => m + 1 / 2 < x ∧ x < m + 1

/-- The two bits tell whether anything is cut off at all. -/
theorem Cut.bits {x : ℚ} {m : ℕ} {round sticky : Bool}
    (h : Cut x m (ExtendedMantissa.accuracy ⟨m, round, sticky⟩)) :
    (round || sticky) = false ∧ x = m ∨ (round || sticky) = true ∧ m < x ∧ x < m + 1 := by
  cases round with
  | false =>
    cases sticky with
    | false => exact .inl ⟨rfl, h⟩
    | true =>
      obtain ⟨hlo, hhi⟩ : (m : ℚ) < x ∧ x < m + 1 / 2 := h
      exact .inr ⟨rfl, hlo, by linarith⟩
  | true =>
    right
    cases sticky with
    | false =>
      obtain rfl : x = m + 1 / 2 := h
      exact ⟨rfl, by linarith, by linarith⟩
    | true =>
      obtain ⟨hlo, hhi⟩ : (m : ℚ) + 1 / 2 < x ∧ x < m + 1 := h
      exact ⟨rfl, by linarith, hhi⟩

theorem Cut.shiftRightOne {x : ℚ} {em : ExtendedMantissa} (h : Cut x em.mantissa em.accuracy) :
    Cut (x / 2) em.shiftRightOne.mantissa em.shiftRightOne.accuracy := by
  obtain ⟨m, round, sticky⟩ := em
  show Cut (x / 2) (m / 2) (ExtendedMantissa.accuracy ⟨m / 2, m % 2 != 0, round || sticky⟩)
  obtain ⟨k, hk⟩ := Nat.even_or_odd' m
  rcases hk with rfl | rfl
  · have hhalf : 2 * k / 2 = k := by omega
    have heven : (2 * k % 2 != 0) = false := by simp
    rw [hhalf, heven]
    rcases h.bits with ⟨hbits, hx⟩ | ⟨hbits, hlo, hhi⟩ <;> rw [hbits]
    · show x / 2 = k
      push_cast at hx
      linarith
    · show k < x / 2 ∧ x / 2 < k + 1 / 2
      push_cast at hlo hhi
      constructor <;> linarith
  · have hhalf : (2 * k + 1) / 2 = k := by omega
    have hodd : ((2 * k + 1) % 2 != 0) = true := by simp
    rw [hhalf, hodd]
    rcases h.bits with ⟨hbits, hx⟩ | ⟨hbits, hlo, hhi⟩ <;> rw [hbits]
    · show x / 2 = k + 1 / 2
      push_cast at hx
      linarith
    · show k + 1 / 2 < x / 2 ∧ x / 2 < k + 1
      push_cast at hlo hhi
      constructor <;> linarith

theorem Cut.shiftRight {x : ℚ} {em : ExtendedMantissa} (h : Cut x em.mantissa em.accuracy) :
    ∀ n, Cut (x / 2 ^ n) (em >>> n).mantissa (em >>> n).accuracy
  | 0 => by
    rw [pow_zero, div_one]
    exact h
  | n + 1 => by
    rw [pow_succ, ← div_div]
    exact (h.shiftRight n).shiftRightOne

theorem Cut.extended {x : ℚ} {m : ℕ} {a : Accuracy} (h : Cut x m a) :
    let em := ExtendedMantissa.ofMantissaAndAccuracy m a
    Cut x em.mantissa em.accuracy := by
  cases a with
  | exact => exact h
  | inexact o => cases o <;> exact h

theorem Cut.le {x : ℚ} {m : ℕ} {a : Accuracy} (h : Cut x m a) : m ≤ x ∧ x < m + 1 := by
  cases a with
  | exact =>
    simp only [Cut] at h
    constructor <;> linarith
  | inexact o =>
    cases o <;> simp only [Cut] at h <;> constructor <;> linarith

/-- `r` is the natural number nearest to `x`, of two the even one. -/
structure RoundsTo (x : ℚ) (r : ℕ) : Prop where
  near : |x - r| ≤ 1 / 2
  even : |x - r| = 1 / 2 → Even r

theorem RoundsTo.of_lt {x : ℚ} {r : ℕ} (h : |x - r| < 1 / 2) : RoundsTo x r :=
  ⟨h.le, fun he => absurd he h.ne⟩

/-- Of the two natural numbers around a half the even one is the nearest. -/
theorem roundsTo_half (m : ℕ) : RoundsTo (m + 1 / 2) (m + m % 2) := by
  obtain ⟨k, hk⟩ := Nat.even_or_odd' m
  rcases hk with rfl | rfl
  · have hr : 2 * k + 2 * k % 2 = 2 * k := by omega
    rw [hr]
    refine ⟨?_, fun _ => even_two_mul k⟩
    rw [abs_le]
    constructor <;> linarith
  · have hr : 2 * k + 1 + (2 * k + 1) % 2 = 2 * (k + 1) := by omega
    rw [hr]
    refine ⟨?_, fun _ => even_two_mul (k + 1)⟩
    push_cast
    rw [abs_le]
    constructor <;> linarith

theorem Cut.rounded {x : ℚ} {em : ExtendedMantissa} (h : Cut x em.mantissa em.accuracy) :
    RoundsTo x em.roundedMantissa := by
  unfold ExtendedMantissa.roundedMantissa
  generalize em.mantissa = m at h ⊢
  cases ha : em.accuracy with
  | exact =>
    rw [ha] at h
    obtain rfl : x = m := h
    exact .of_lt (by simp [Accuracy.roundToNearestEven])
  | inexact o =>
    rw [ha] at h
    cases o with
    | lt =>
      obtain ⟨hlo, hhi⟩ : (m : ℚ) < x ∧ x < m + 1 / 2 := h
      apply RoundsTo.of_lt
      show |x - m| < 1 / 2
      rw [abs_lt]
      constructor <;> linarith
    | eq =>
      obtain rfl : x = m + 1 / 2 := h
      exact roundsTo_half m
    | gt =>
      obtain ⟨hlo, hhi⟩ : (m : ℚ) + 1 / 2 < x ∧ x < m + 1 := h
      apply RoundsTo.of_lt
      show |x - (m + 1 : ℕ)| < 1 / 2
      push_cast
      rw [abs_lt]
      constructor <;> linarith

/-! ## Rounding to a double -/

/-- The exponent at which a significand has 53 bits, or the least there is. -/
theorem target_eq (m : ℕ) (e : ℤ) :
    Format.binary64.targetExponent (totalExponent m e) = max (m.log2 + e - 52) (-1074) := by
  simp only [Format.targetExponent, totalExponent, Format.mantissaBits, Format.minExponent]
  omega

theorem two_zpow_pos (e : ℤ) : (0 : ℚ) < 2 ^ e :=
  zpow_pos two_pos e

theorem two_zpow_le {d e : ℤ} (h : d ≤ e) : (2 : ℚ) ^ d ≤ 2 ^ e :=
  zpow_le_zpow_right₀ one_le_two h

theorem Cut.lt_log2 {q : ℚ} {m : ℕ} {e : ℤ} {a : Accuracy} (h : Cut (q / 2 ^ e) m a) :
    q < 2 ^ ((m.log2 + 1 : ℤ) + e) := by
  have hlt := h.le.2
  rw [div_lt_iff₀ (two_zpow_pos e)] at hlt
  have hm : (m : ℚ) + 1 ≤ 2 ^ (m.log2 + 1) := by
    exact_mod_cast (Nat.lt_log2_self : m < 2 ^ (m.log2 + 1))
  calc q < (m + 1) * 2 ^ e := hlt
    _ ≤ 2 ^ (m.log2 + 1) * 2 ^ e := mul_le_mul_of_nonneg_right hm (two_zpow_pos e).le
    _ = 2 ^ ((m.log2 + 1 : ℤ) + e) := by
      rw [zpow_add₀ two_ne_zero]
      norm_cast

theorem Cut.log2_le {q : ℚ} {m : ℕ} {e : ℤ} {a : Accuracy} (h : Cut (q / 2 ^ e) m a) (hm : m ≠ 0) :
    2 ^ (m.log2 + e : ℤ) ≤ q := by
  have hle := h.le.1
  rw [le_div_iff₀ (two_zpow_pos e)] at hle
  have hlog : (2 : ℚ) ^ m.log2 ≤ m := by exact_mod_cast Nat.log2_self_le hm
  calc (2 : ℚ) ^ (m.log2 + e : ℤ) = 2 ^ m.log2 * 2 ^ e := by
        rw [zpow_add₀ two_ne_zero, zpow_natCast]
    _ ≤ m * 2 ^ e := mul_le_mul_of_nonneg_right hlog (two_zpow_pos e).le
    _ ≤ q := hle

structure Shifted (q : ℚ) (r : ℕ) (t : ℤ) : Prop where
  rounds : RoundsTo (q / 2 ^ t) r
  least : -1074 ≤ t
  lt : q / 2 ^ t < 2 ^ 53
  full : t = -1074 ∨ 2 ^ 52 ≤ q / 2 ^ t

theorem shift_target {q : ℚ} {m : ℕ} {e : ℤ} {a : Accuracy} (h : Cut (q / 2 ^ e) m a)
    (he : e ≤ max (m.log2 + e - 52) (-1074)) :
    ∃ em t, shiftToTargetExponent Format.binary64 m e a = (em, t) ∧
      Shifted q em.roundedMantissa t := by
  let t := max (m.log2 + e - 52 : ℤ) (-1074)
  let em := ExtendedMantissa.ofMantissaAndAccuracy m a >>> (t - e).toNat
  have hsteps : e + ((t - e).toNat : ℤ) = t := by omega
  have hshift : shiftToTargetExponent Format.binary64 m e a = (em, t) := by
    unfold shiftToTargetExponent shiftToExponent
    rw [target_eq]
    exact Prod.ext rfl hsteps
  have hcut : Cut (q / 2 ^ t) em.mantissa em.accuracy := by
    have hpow : (2 : ℚ) ^ t = 2 ^ e * 2 ^ (t - e).toNat := by
      rw [← zpow_natCast, ← zpow_add₀ two_ne_zero, hsteps]
    rw [hpow, ← div_div]
    exact h.extended.shiftRight _
  refine ⟨em, t, hshift, hcut.rounded, le_max_right _ _, ?_, ?_⟩
  · have hle : (m.log2 + 1 : ℤ) + e ≤ 53 + t := by omega
    rw [div_lt_iff₀ (two_zpow_pos t)]
    calc q < 2 ^ ((m.log2 + 1 : ℤ) + e) := h.lt_log2
      _ ≤ 2 ^ (53 + t) := two_zpow_le hle
      _ = 2 ^ 53 * 2 ^ t := by
        rw [zpow_add₀ two_ne_zero]
        norm_cast
  · by_cases ht : t = -1074
    · exact .inl ht
    · right
      have hm : m ≠ 0 := by
        rintro rfl
        have hzero : Nat.log2 0 = 0 := rfl
        omega
      have heq : 52 + t = m.log2 + e := by omega
      rw [le_div_iff₀ (two_zpow_pos t)]
      calc (2 : ℚ) ^ 52 * 2 ^ t = 2 ^ (52 + t) := by
            rw [zpow_add₀ two_ne_zero]
            norm_cast
        _ = 2 ^ (m.log2 + e : ℤ) := by rw [heq]
        _ ≤ q := h.log2_le hm

structure Normal (m : ℕ) (e : ℤ) : Prop where
  pos : 0 < m
  lt : m < 2 ^ 53
  least : -1074 ≤ e
  full : e = -1074 ∨ 2 ^ 52 ≤ m

theorem shift_fitting {m : ℕ} {e : ℤ} (hm : m < 2 ^ 53) (he : -1074 ≤ e) :
    shiftToTargetExponent Format.binary64 m e .exact = (⟨m, false, false⟩, e) := by
  have hlog : m.log2 ≤ 52 := by
    by_cases hzero : m = 0
    · rw [hzero]
      exact Nat.zero_le _
    · exact Nat.le_of_lt_succ ((Nat.log2_lt hzero).mpr hm)
  have hnone : (max (m.log2 + e - 52 : ℤ) (-1074) - e).toNat = 0 := by omega
  unfold shiftToTargetExponent shiftToExponent
  dsimp only
  rw [target_eq, hnone]
  exact Prod.ext rfl (add_zero e)

theorem shift_carried {e : ℤ} (he : -1074 ≤ e) :
    shiftToTargetExponent Format.binary64 (2 ^ 53) e .exact = (⟨2 ^ 52, false, false⟩, e + 1) := by
  have hlog : Nat.log2 (2 ^ 53) = 53 := Nat.log2_two_pow
  have hone : (max (Nat.log2 (2 ^ 53) + e - 52 : ℤ) (-1074) - e).toNat = 1 := by omega
  unfold shiftToTargetExponent shiftToExponent
  dsimp only
  rw [target_eq, hone]
  rfl

def ofShifted (sign : Sign) (p : ExtendedMantissa × ℤ) : UnpackedFloat :=
  if h : p.1.mantissa = 0 then .zero sign else .finite sign p.1.mantissa p.2 (Nat.pos_of_ne_zero h)

theorem round_eq {m : ℕ} {e t : ℤ} {a : Accuracy} {em : ExtendedMantissa} (sign : Sign)
    (h : shiftToTargetExponent Format.binary64 m e a = (em, t)) :
    roundWithAccuracy Format.binary64 sign m e a =
      ofShifted sign (shiftToTargetExponent Format.binary64 em.roundedMantissa t .exact) := by
  let p := shiftToTargetExponent Format.binary64 m e a
  show ofShifted sign (shiftToTargetExponent Format.binary64 p.1.roundedMantissa p.2 .exact) = _
  rw [show p = (em, t) from h]

/-! ## Packing -/

def components (sign : Sign) (x : BitVec 11) (f : BitVec 52) : UnpackedFloat :=
  unpack Format.binary64 (packComponents Format.binary64 sign x f)

theorem finite_congr {sign : Sign} {m m' : ℕ} {e e' : ℤ} (h : 0 < m) (h' : 0 < m') (hm : m = m')
    (he : e = e') : finite sign m e h = finite sign m' e' h' := by
  subst hm he
  rfl

theorem components_normal {sign : Sign} {x : BitVec 11} {f : BitVec 52} (hinf : x ≠ -1#11)
    (hzero : x ≠ 0#11) :
    components sign x f = .finite sign (2 ^ 52 + f.toNat) (x.toNat - 1075) (by omega) := by
  unfold components unpack
  simp only [unpackExponent_packComponents, unpackMantissa_packComponents,
    unpackSign_packComponents, Sign.ofBitVec_toBitVec]
  rw [if_neg hinf, if_neg hzero]
  apply finite_congr
  · rw [BitVec.toNat_append, ← Nat.shiftLeft_add_eq_or_of_lt f.isLt]
    rfl
  · rfl

theorem components_small {sign : Sign} {f : BitVec 52} (hf : 0 < f.toNat) :
    components sign 0#11 f = .finite sign f.toNat (-1074) hf := by
  have hne : f ≠ 0#52 := by
    rintro rfl
    cases hf
  unfold components unpack
  simp only [unpackExponent_packComponents, unpackMantissa_packComponents,
    unpackSign_packComponents, Sign.ofBitVec_toBitVec]
  rw [if_neg (by decide), if_pos trivial, dif_neg hne]
  rfl

theorem unpack_pack_components {m : ℕ} {e : ℤ} (sign : Sign) (h : Normal m e) (he : e ≤ 971) :
    (pack (.finite sign m e h.pos)).unpack =
      components sign (if 2 ^ 52 ≤ m then BitVec.ofNat 11 (e + 1023 + 52).toNat else 0#11)
        (BitVec.ofNat 52 m) := by
  have hlow := h.least
  have hfits : ¬ 2 ^ 11 ≤ (e + 1023 + 52).toNat + 1 := by omega
  have hfull : m.log2 + 1 = 53 ↔ 2 ^ 52 ≤ m := by
    rw [← Nat.le_log2 h.pos.ne']
    have hlog := (Nat.log2_lt h.pos.ne').mpr h.lt
    omega
  show unpack Format.binary64 (if 2 ^ 11 ≤ (e + 1023 + 52).toNat + 1 then _ else
    if m.log2 + 1 = 53 then _ else _) = _
  rw [if_neg hfits]
  by_cases hm : 2 ^ 52 ≤ m
  · rw [if_pos (hfull.mpr hm), if_pos hm]
    rfl
  · rw [if_neg (mt hfull.mp hm), if_neg hm]
    rfl

theorem unpack_pack_normal {m : ℕ} {e : ℤ} (sign : Sign) (h : Normal m e) (he : e ≤ 971) :
    (pack (.finite sign m e h.pos)).unpack = .finite sign m e h.pos := by
  have hlow := h.least
  have hlt := h.lt
  have hfraction : (BitVec.ofNat 52 m).toNat = m % 2 ^ 52 := BitVec.toNat_ofNat m 52
  rw [unpack_pack_components sign h he]
  by_cases hm : 2 ^ 52 ≤ m
  · have hfield : (BitVec.ofNat 11 (e + 1023 + 52).toNat).toNat = (e + 1075).toNat := by
      rw [BitVec.toNat_ofNat]
      omega
    rw [if_pos hm, components_normal]
    · apply finite_congr
      · omega
      · omega
    · intro hinf
      have hall := congrArg BitVec.toNat hinf
      have hmax : (-1#11).toNat = 2047 := rfl
      omega
    · intro hzero
      have hnone := congrArg BitVec.toNat hzero
      have hmin : (0#11).toNat = 0 := rfl
      omega
  · have hleast := h.full.resolve_right hm
    have hpos := h.pos
    rw [if_neg hm, components_small (by omega)]
    apply finite_congr
    · omega
    · exact hleast.symm

theorem unpack_pack_infinity (sign : Sign) : (pack (.infinity sign)).unpack = .infinity sign := by
  cases sign <;> rfl

theorem unpack_pack_zero (sign : Sign) : (pack (.zero sign)).unpack = .zero sign :=
  unpack_packedZero

theorem unpack_pack_large {m : ℕ} {e : ℤ} (sign : Sign) (h : 0 < m) (he : 972 ≤ e) :
    (pack (.finite sign m e h)).unpack = .infinity sign := by
  have hlarge : 2 ^ 11 ≤ (e + 1023 + 52).toNat + 1 := by omega
  rw [← unpack_pack_infinity sign]
  show unpack Format.binary64 (if 2 ^ 11 ≤ (e + 1023 + 52).toNat + 1 then _ else _) = _
  rw [if_pos hlarge]
  rfl

/-! ## The nearest double -/

/-- `m * 2 ^ e` is the double nearest to `q`, of two as near the one with an even significand; there
are doubles beyond the largest here. -/
structure Nearest (q : ℚ) (m : ℕ) (e : ℤ) : Prop where
  normal : Normal m e
  near : ∀ (m' : ℕ) (e' : ℤ), m' < 2 ^ 53 → -1074 ≤ e' → |q - m * 2 ^ e| ≤ |q - m' * 2 ^ e'|
  even : |q - m * 2 ^ e| = 2 ^ e / 2 → Even m

/-- No natural number is nearer. -/
theorem RoundsTo.near_nat {x : ℚ} {r : ℕ} (h : RoundsTo x r) (k : ℕ) : |x - r| ≤ |x - k| := by
  by_cases hk : k = r
  · rw [hk]
  · have hone : (1 : ℚ) ≤ |(k : ℚ) - r| := by
      have hint : (1 : ℤ) ≤ |(k : ℤ) - r| := Int.one_le_abs (by omega)
      exact_mod_cast hint
    have htriangle : |(k : ℚ) - r| ≤ |x - r| + |x - k| := by
      rw [abs_sub_comm x (k : ℚ), add_comm]
      exact abs_sub_le _ _ _
    have hnear := h.near
    linarith

theorem distance_eq (q : ℚ) (k : ℕ) (t : ℤ) : |q - k * 2 ^ t| = |q / 2 ^ t - k| * 2 ^ t := by
  have hpos := two_zpow_pos t
  rw [← abs_of_pos hpos, ← abs_mul, abs_of_pos hpos, sub_mul, div_mul_cancel₀ _ hpos.ne']

theorem units_eq (m : ℕ) {e t : ℤ} (h : t ≤ e) :
    (m : ℚ) * 2 ^ e = (m * 2 ^ (e - t).toNat : ℕ) * 2 ^ t := by
  have hsplit : e = ((e - t).toNat : ℤ) + t := by omega
  push_cast
  rw [mul_assoc, ← zpow_natCast, ← zpow_add₀ two_ne_zero, ← hsplit]

theorem below_units {m : ℕ} {e t : ℤ} (hm : m < 2 ^ 53) (h : e < t) :
    (m : ℚ) * 2 ^ e < (2 ^ 52 : ℕ) * 2 ^ t := by
  have hm' : (m : ℚ) < 2 ^ 53 := by exact_mod_cast hm
  calc (m : ℚ) * 2 ^ e < 2 ^ 53 * 2 ^ e := mul_lt_mul_of_pos_right hm' (two_zpow_pos e)
    _ ≤ 2 ^ 53 * 2 ^ (t - 1) := mul_le_mul_of_nonneg_left (two_zpow_le (by omega)) (by positivity)
    _ = (2 ^ 52 : ℕ) * 2 ^ t := by
      rw [zpow_sub_one₀ two_ne_zero]
      push_cast
      ring

/-- One significand more is a double too, if need be with the next exponent. -/
theorem Nearest.near_succ {q : ℚ} {m : ℕ} {e : ℤ} (h : Nearest q m e) :
    |q - m * 2 ^ e| ≤ |q - (m + 1 : ℕ) * 2 ^ e| := by
  have hlow := h.normal.least
  by_cases hm : m + 1 < 2 ^ 53
  · exact h.near _ _ hm hlow
  · have hcarried : m + 1 = 2 ^ 53 := by
      have hlt := h.normal.lt
      omega
    have hsame : ((m + 1 : ℕ) : ℚ) * 2 ^ e = (2 ^ 52 : ℕ) * 2 ^ (e + 1) := by
      rw [hcarried, zpow_add_one₀ two_ne_zero]
      push_cast
      ring
    rw [hsame]
    exact h.near _ _ (Nat.pow_lt_pow_right (by decide) (by decide)) (by omega)

theorem Normal.lt_of_exponent {m m' : ℕ} {e e' : ℤ} (h : Normal m e) (h' : Normal m' e')
    (he : e < e') : (m : ℚ) * 2 ^ e < m' * 2 ^ e' := by
  have hleast := h.least
  have hfull := h'.full.resolve_left (by omega)
  exact (below_units h.lt he).trans_le
    (mul_le_mul_of_nonneg_right (by exact_mod_cast hfull) (two_zpow_pos e').le)

theorem Normal.unique {m m' : ℕ} {e e' : ℤ} (h : Normal m e) (h' : Normal m' e')
    (hvalue : (m : ℚ) * 2 ^ e = m' * 2 ^ e') : m = m' ∧ e = e' := by
  have he : e = e' := by
    refine le_antisymm (not_lt.mp fun hgt => ?_) (not_lt.mp fun hgt => ?_)
    · exact (h'.lt_of_exponent h hgt).ne' hvalue
    · exact (h.lt_of_exponent h' hgt).ne hvalue
  subst he
  exact ⟨by exact_mod_cast mul_right_cancel₀ (two_zpow_pos e).ne' hvalue, rfl⟩

theorem middle_eq {q : ℚ} {m k : ℕ} {e : ℤ} (hmk : m < k)
    (hdist : |q - m * 2 ^ e| = |q - k * 2 ^ e|) : q / 2 ^ e = (m + k) / 2 := by
  have hmk' : (m : ℚ) < k := by exact_mod_cast hmk
  rw [distance_eq, distance_eq] at hdist
  rcases abs_eq_abs.mp (mul_right_cancel₀ (two_zpow_pos e).ne' hdist) with heq | heq <;> linarith

/-- As near as a nearest double is at most the next multiple of its unit, and then half a unit
away. -/
theorem Nearest.tie {q : ℚ} {m k : ℕ} {e : ℤ} (h : Nearest q m e) (hmk : m < k)
    (hdist : |q - m * 2 ^ e| = |q - k * 2 ^ e|) : k = m + 1 ∧ |q - m * 2 ^ e| = 2 ^ e / 2 := by
  have hmiddle := middle_eq hmk hdist
  have hle : m + 1 ≤ k := hmk
  have hfrom : |q - m * 2 ^ e| = (k - m) / 2 * 2 ^ e := by
    have hle' : (m : ℚ) + 1 ≤ k := by exact_mod_cast hle
    rw [distance_eq, hmiddle, abs_of_nonneg (by linarith)]
    ring
  have hsucc : k = m + 1 := by
    refine le_antisymm (not_lt.mp fun hgap => ?_) hle
    have hgap' : (m : ℚ) + 2 ≤ k := by exact_mod_cast hgap
    have hnear := h.near_succ
    rw [hfrom, distance_eq, hmiddle] at hnear
    have hcloser := le_of_mul_le_mul_right hnear (two_zpow_pos e)
    push_cast at hcloser
    rw [abs_of_nonneg (by linarith)] at hcloser
    linarith
  refine ⟨hsucc, ?_⟩
  rw [hfrom, hsucc]
  push_cast
  ring

/-- Two doubles as near would be next to each other, and of those one has an odd significand. -/
theorem Nearest.not_below {q : ℚ} {m m' : ℕ} {e e' : ℤ} (h : Nearest q m e) (h' : Nearest q m' e') :
    ¬ (m : ℚ) * 2 ^ e < m' * 2 ^ e' := by
  intro hlt
  have he : e ≤ e' := not_lt.mp fun hlow => lt_asymm hlt (h'.normal.lt_of_exponent h.normal hlow)
  obtain ⟨k, hk⟩ : ∃ k, m' * 2 ^ (e' - e).toNat = k := ⟨_, rfl⟩
  have hvalue : (m' : ℚ) * 2 ^ e' = k * 2 ^ e := by rw [units_eq m' he, hk]
  have hdist : |q - m * 2 ^ e| = |q - k * 2 ^ e| := by
    rw [← hvalue]
    exact le_antisymm (h.near _ _ h'.normal.lt h'.normal.least)
      (h'.near _ _ h.normal.lt h.normal.least)
  have hmk : m < k := by
    rw [hvalue] at hlt
    exact_mod_cast lt_of_mul_lt_mul_right hlt (two_zpow_pos e).le
  obtain ⟨hsucc, hhalf⟩ := h.tie hmk hdist
  have hodd : ¬ Even k := by
    rw [hsucc]
    exact Nat.not_even_iff_odd.mpr (h.even hhalf).add_one
  by_cases hsame : e' = e
  · subst hsame
    have hm' : m' = k := by
      rw [← hk, sub_self]
      exact (mul_one m').symm
    apply hodd
    rw [← hm']
    apply h'.even
    rw [hvalue, ← hdist, hhalf]
  · apply hodd
    rw [← hk]
    have hgap : (e' - e).toNat ≠ 0 := by omega
    exact (even_two.pow_of_ne_zero hgap).mul_left m'

theorem Nearest.unique {q : ℚ} {m m' : ℕ} {e e' : ℤ} (h : Nearest q m e) (h' : Nearest q m' e') :
    m = m' ∧ e = e' :=
  h.normal.unique h'.normal (le_antisymm (not_lt.mp (h'.not_below h)) (not_lt.mp (h.not_below h')))

namespace Shifted

variable {q : ℚ} {r : ℕ} {t : ℤ}

theorem near (h : Shifted q r t) {m : ℕ} {e : ℤ} (hm : m < 2 ^ 53) (he : -1074 ≤ e) :
    |q - r * 2 ^ t| ≤ |q - m * 2 ^ e| := by
  have hpos := two_zpow_pos t
  by_cases hte : t ≤ e
  · rw [units_eq m hte, distance_eq, distance_eq]
    exact mul_le_mul_of_nonneg_right (h.rounds.near_nat _) hpos.le
  · -- below the least number with as many bits as `r`
    have hfull : (2 : ℚ) ^ 52 ≤ q / 2 ^ t := h.full.resolve_left (by omega)
    have hbelow := below_units hm (not_le.mp hte)
    have hq : ((2 ^ 52 : ℕ) : ℚ) * 2 ^ t ≤ q := by
      rw [← le_div_iff₀ hpos]
      exact_mod_cast hfull
    have hmiddle := mul_le_mul_of_nonneg_right (h.rounds.near_nat (2 ^ 52)) hpos.le
    rw [← distance_eq, ← distance_eq, abs_of_nonneg (sub_nonneg.mpr hq)] at hmiddle
    rw [abs_of_nonneg (sub_nonneg.mpr (hbelow.le.trans hq))]
    linarith

theorem even (h : Shifted q r t) (ht : |q - r * 2 ^ t| = 2 ^ t / 2) : Even r := by
  apply h.rounds.even
  rw [distance_eq] at ht
  have hpos := two_zpow_pos t
  apply mul_right_cancel₀ hpos.ne'
  rw [ht]
  ring

theorem nearest (h : Shifted q r t) (hpos : 0 < r) (hlt : r < 2 ^ 53) : Nearest q r t := by
  refine ⟨⟨hpos, hlt, h.least, ?_⟩, fun m e => h.near, h.even⟩
  refine h.full.imp id fun hfull => ?_
  have hnear := (abs_le.mp h.rounds.near).2
  by_contra hlow
  have hr : (r : ℚ) + 1 ≤ 2 ^ 52 := by exact_mod_cast not_le.mp hlow
  linarith

theorem nearest_carried (h : Shifted q (2 ^ 53) t) : Nearest q (2 ^ 52) (t + 1) := by
  have hsame : ((2 ^ 53 : ℕ) : ℚ) * 2 ^ t = (2 ^ 52 : ℕ) * 2 ^ (t + 1) := by
    rw [zpow_add_one₀ two_ne_zero]
    push_cast
    ring
  refine ⟨⟨Nat.two_pow_pos 52, Nat.pow_lt_pow_right (by decide) (by decide), ?_, .inr le_rfl⟩,
    fun m e hm he => ?_, fun _ => ⟨2 ^ 51, rfl⟩⟩
  · have hleast := h.least
    omega
  · rw [← hsame]
    exact h.near hm he

end Shifted

/-! ## Rounding -/

/-- Half of the least double: what is not above it is rounded to zero. -/
def vanishing : ℚ := 2 ^ (-1074 : ℤ) / 2

/-- Half a unit above the largest double: from there on there is nothing but infinity. -/
def overflowing : ℚ := (2 ^ 53 - 1 / 2) * 2 ^ (971 : ℤ)

inductive Rounded (q : ℚ) : UnpackedFloat → Prop
  | zero (h : q ≤ vanishing) : Rounded q (.zero .positive)
  | finite {m : ℕ} {e : ℤ} (h : Nearest q m e) (hlo : vanishing < q) (hhi : q < overflowing) :
    Rounded q (.finite .positive m e h.normal.pos)
  | infinite (h : overflowing ≤ q) : Rounded q (.infinity .positive)

theorem vanishing_lt_one : vanishing < 1 := by
  have hle := two_zpow_le (by decide : (-1074 : ℤ) ≤ 0)
  rw [zpow_zero] at hle
  unfold vanishing
  linarith

theorem lt_overflowing : (2 : ℚ) ^ 53 < overflowing := by
  have hle := two_zpow_le (by decide : (1 : ℤ) ≤ 971)
  rw [zpow_one] at hle
  calc (2 : ℚ) ^ 53 < (2 ^ 53 - 1 / 2) * 2 := by norm_num
    _ ≤ overflowing := mul_le_mul_of_nonneg_left hle (by norm_num)

theorem vanishing_lt_overflowing : vanishing < overflowing := by
  have hone := vanishing_lt_one
  have hlarge := lt_overflowing
  norm_num at hlarge
  linarith

theorem Rounded.unique {q : ℚ} {u v : UnpackedFloat} (hu : Rounded q u) (hv : Rounded q v) :
    u = v := by
  have hapart := vanishing_lt_overflowing
  cases hu with
  | zero h =>
    cases hv with
    | zero _ => rfl
    | finite _ hlo _ => exact absurd h (not_le.mpr hlo)
    | infinite h' => exact absurd (h.trans_lt hapart) (not_lt.mpr h')
  | finite h hlo hhi =>
    cases hv with
    | zero h' => exact absurd h' (not_le.mpr hlo)
    | finite h' _ _ =>
      obtain ⟨hm, he⟩ := h.unique h'
      exact finite_congr _ _ hm he
    | infinite h' => exact absurd hhi (not_lt.mpr h')
  | infinite h =>
    cases hv with
    | zero h' => exact absurd (h'.trans_lt hapart) (not_lt.mpr h)
    | finite _ _ hhi => exact absurd hhi (not_lt.mpr h)
    | infinite _ => rfl

theorem Shifted.le_vanishing {q : ℚ} {t : ℤ} (h : Shifted q 0 t) : q ≤ vanishing := by
  have hnear := (abs_le.mp h.rounds.near).2
  rw [Nat.cast_zero, sub_zero] at hnear
  have ht : t = -1074 := by
    refine h.full.resolve_right fun hfull => ?_
    have hfull' := hfull.trans hnear
    norm_num at hfull'
  rw [ht, div_le_iff₀ (two_zpow_pos _)] at hnear
  unfold vanishing
  linarith

theorem Shifted.vanishing_lt {q : ℚ} {r : ℕ} {t : ℤ} (h : Shifted q r t) (hr : 0 < r) :
    vanishing < q := by
  have hpos := two_zpow_pos t
  have hhalf : 1 / 2 * 2 ^ t < q := by
    rw [← lt_div_iff₀ hpos]
    by_cases hone : r = 1
    · -- one half would go to the even zero
      obtain ⟨hlo, _⟩ := abs_le.mp h.rounds.near
      rw [hone, Nat.cast_one] at hlo
      refine lt_of_le_of_ne (by linarith) fun heq => ?_
      have hodd := h.rounds.even (by rw [hone, ← heq]; norm_num)
      rw [hone] at hodd
      exact absurd hodd (by decide)
    · obtain ⟨hlo, _⟩ := abs_le.mp h.rounds.near
      have htwo : (2 : ℚ) ≤ r := by exact_mod_cast (by omega : 2 ≤ r)
      linarith
  have hleast := two_zpow_le h.least
  unfold vanishing
  linarith

theorem Shifted.lt_overflowing {q : ℚ} {r : ℕ} {t : ℤ} (h : Shifted q r t) (ht : t ≤ 970) :
    q < overflowing := by
  have hlt := (div_lt_iff₀ (two_zpow_pos t)).mp h.lt
  calc q < 2 ^ 53 * 2 ^ t := hlt
    _ ≤ 2 ^ 53 * 2 ^ (970 : ℤ) := mul_le_mul_of_nonneg_left (two_zpow_le ht) (by positivity)
    _ = 2 ^ 52 * 2 ^ (971 : ℤ) := by
      rw [show (971 : ℤ) = 970 + 1 from rfl, zpow_add_one₀ two_ne_zero]
      ring
    _ ≤ overflowing := mul_le_mul_of_nonneg_right (by norm_num) (two_zpow_pos _).le

theorem Shifted.lt_overflowing_of_lt {q : ℚ} {r : ℕ} {t : ℤ} (h : Shifted q r t)
    (hr : r < 2 ^ 53) (ht : t ≤ 971) : q < overflowing := by
  by_cases htop : t = 971
  · subst htop
    unfold overflowing
    rw [← div_lt_iff₀ (two_zpow_pos _)]
    obtain ⟨_, hhi⟩ := abs_le.mp h.rounds.near
    have hr' : (r : ℚ) + 1 ≤ 2 ^ 53 := by exact_mod_cast hr
    refine lt_of_le_of_ne (by linarith) fun heq => ?_
    -- at the middle the even one of two is taken, which is not the largest
    have hlargest : (r : ℚ) = 2 ^ 53 - 1 := by linarith
    have hr'' : r = 2 ^ 53 - 1 := by
      have hcast : ((r + 1 : ℕ) : ℚ) = (2 ^ 53 : ℕ) := by
        push_cast
        linarith
      have hsucc := Nat.cast_injective hcast
      omega
    have hodd := h.rounds.even (by rw [heq, hlargest]; norm_num)
    rw [hr''] at hodd
    exact absurd hodd (by decide)
  · exact h.lt_overflowing (by omega)

theorem overflowing_le_of {q x : ℚ} {t : ℤ} (ht : 971 ≤ t) (hx : 2 ^ 53 - 1 / 2 ≤ x)
    (h : x * 2 ^ t ≤ q) : overflowing ≤ q := by
  have hpos : (0 : ℚ) ≤ 2 ^ 53 - 1 / 2 := by norm_num
  calc overflowing ≤ x * 2 ^ t :=
        mul_le_mul hx (two_zpow_le ht) (two_zpow_pos _).le (hpos.trans hx)
    _ ≤ q := h

theorem Shifted.overflowing_le {q : ℚ} {r : ℕ} {t : ℤ} (h : Shifted q r t) (ht : 972 ≤ t) :
    overflowing ≤ q := by
  have hfull := (le_div_iff₀ (two_zpow_pos t)).mp (h.full.resolve_left (by omega))
  apply overflowing_le_of (x := 2 ^ 53) (t := t - 1) (by omega) (by norm_num)
  rw [zpow_sub_one₀ two_ne_zero]
  linarith

theorem Shifted.overflowing_le_carried {q : ℚ} {t : ℤ} (h : Shifted q (2 ^ 53) t)
    (ht : 971 ≤ t) : overflowing ≤ q := by
  obtain ⟨hlo, _⟩ := abs_le.mp h.rounds.near
  push_cast at hlo
  apply overflowing_le_of ht (x := q / 2 ^ t) (by linarith)
  exact (div_mul_cancel₀ q (two_zpow_pos t).ne').le

/-- **Rounding.** A number whose significand was cut off, with no bit of the result missing, is
rounded; where the significand is carried to one bit more, it is shifted once again. -/
theorem rounded_round {q : ℚ} {m : ℕ} {e : ℤ} {a : Accuracy} (h : Cut (q / 2 ^ e) m a)
    (he : e ≤ max (m.log2 + e - 52) (-1074)) :
    Rounded q (pack (roundWithAccuracy Format.binary64 .positive m e a)).unpack := by
  obtain ⟨em, t, hshift, hs⟩ := shift_target h he
  rw [round_eq .positive hshift]
  have hleast := hs.least
  generalize em.roundedMantissa = r at hs ⊢
  by_cases hzero : r = 0
  · subst hzero
    rw [shift_fitting (Nat.two_pow_pos 53) hleast]
    show Rounded q (pack (.zero .positive)).unpack
    rw [unpack_pack_zero]
    exact .zero hs.le_vanishing
  · have hpos : 0 < r := Nat.pos_of_ne_zero hzero
    by_cases hlt : r < 2 ^ 53
    · have hnear := hs.nearest hpos hlt
      have hfinite : ofShifted .positive (⟨r, false, false⟩, t) = .finite .positive r t hpos :=
        dif_neg hzero
      rw [shift_fitting hlt hleast, hfinite]
      by_cases ht : t ≤ 971
      · rw [unpack_pack_normal .positive hnear.normal ht]
        exact .finite hnear (hs.vanishing_lt hpos) (hs.lt_overflowing_of_lt hlt ht)
      · rw [unpack_pack_large .positive hpos (by omega)]
        exact .infinite (hs.overflowing_le (by omega))
    · have hcarried : r = 2 ^ 53 := by
        have hle : (r : ℚ) < 2 ^ 53 + 1 := by
          have hbound := hs.lt
          obtain ⟨hlo, _⟩ := abs_le.mp hs.rounds.near
          linarith
        have hle' : r < 2 ^ 53 + 1 := by exact_mod_cast hle
        omega
      subst hcarried
      have hnear := hs.nearest_carried
      rw [shift_carried hleast]
      show Rounded q (pack (.finite .positive (2 ^ 52) (t + 1) hnear.normal.pos)).unpack
      by_cases ht : t + 1 ≤ 971
      · rw [unpack_pack_normal .positive hnear.normal ht]
        exact .finite hnear (hs.vanishing_lt hpos) (hs.lt_overflowing (by omega))
      · rw [unpack_pack_large .positive _ (by omega)]
        exact .infinite (hs.overflowing_le_carried (by omega))

/-! ## Products and quotients -/

theorem rounded_mul {m₁ m₂ : ℕ} {e₁ e₂ : ℤ} (h₁ : 0 < m₁) (h₂ : 0 < m₂)
    (hm : 2 ^ 52 ≤ m₁ * m₂) : Rounded (m₁ * 2 ^ e₁ * (m₂ * 2 ^ e₂))
      (pack (UnpackedFloat.mul Format.binary64 (.finite .positive m₁ e₁ h₁)
        (.finite .positive m₂ e₂ h₂))).unpack := by
  have hlog : 52 ≤ (m₁ * m₂).log2 := (Nat.le_log2 (Nat.mul_pos h₁ h₂).ne').mpr hm
  apply rounded_round (e := e₁ + e₂)
  · show _ = ((m₁ * m₂ : ℕ) : ℚ)
    rw [div_eq_iff (two_zpow_pos _).ne', zpow_add₀ two_ne_zero]
    push_cast
    ring
  · omega

theorem cut_div (m : ℕ) {n : ℕ} (hn : 0 < n) :
    Cut ((m : ℚ) / n) (m / n) (accuracyOfFraction (m % n) n) := by
  have hn' : (0 : ℚ) < n := by exact_mod_cast hn
  have hparts : (m : ℚ) = (m / n : ℕ) * n + (m % n : ℕ) := by
    exact_mod_cast (Nat.div_add_mod' m n).symm
  have hlt : ((m % n : ℕ) : ℚ) < n := by exact_mod_cast Nat.mod_lt m hn
  have hx : (m : ℚ) / n = (m / n : ℕ) + (m % n : ℕ) / n := by
    rw [div_eq_iff hn'.ne', add_mul, div_mul_cancel₀ _ hn'.ne']
    exact hparts
  rw [hx]
  generalize m / n = k
  generalize m % n = l at hlt
  unfold accuracyOfFraction
  by_cases hl : l = 0
  · rw [if_pos hl, hl]
    show ((k : ℚ) + (0 : ℕ) / n) = k
    rw [Nat.cast_zero, zero_div, add_zero]
  · have hpos : (0 : ℚ) < l / n := div_pos (by exact_mod_cast Nat.pos_of_ne_zero hl) hn'
    have hone : (l : ℚ) / n < 1 := (div_lt_one hn').mpr hlt
    rw [if_neg hl]
    rcases lt_trichotomy (2 * l) n with h | h | h
    · have hhalf : (l : ℚ) / n < 1 / 2 := by
        rw [div_lt_div_iff₀ hn' two_pos]
        exact_mod_cast (by omega : l * 2 < 1 * n)
      rw [compare_lt_iff_lt.mpr h]
      constructor <;> linarith
    · have hhalf : (l : ℚ) / n = 1 / 2 := by
        rw [div_eq_div_iff hn'.ne' two_ne_zero]
        exact_mod_cast (by omega : l * 2 = 1 * n)
      rw [compare_eq_iff_eq.mpr h, hhalf]
      rfl
    · have hhalf : 1 / 2 < (l : ℚ) / n := by
        rw [div_lt_div_iff₀ two_pos hn']
        exact_mod_cast (by omega : 1 * n < l * 2)
      rw [compare_gt_iff_gt.mpr h]
      constructor <;> linarith

theorem divCore_eq {m₁ m₂ s : ℕ} {e₁ e₂ t : ℤ}
    (ht : min (e₁ - e₂) (max (m₁.log2 + e₁ - (m₂.log2 + e₂) - 53) (-1074)) = t)
    (hs : (e₁ - e₂ - t).toNat = s) : divCore Format.binary64 m₁ e₁ m₂ e₂ =
      (m₁ * 2 ^ s / m₂, t, accuracyOfFraction (m₁ * 2 ^ s % m₂) m₂) := by
  have htarget : Format.binary64.targetExponent (totalExponent m₁ e₁ - totalExponent m₂ e₂) =
      max (m₁.log2 + e₁ - (m₂.log2 + e₂) - 53) (-1074) := by
    simp only [Format.targetExponent, totalExponent, Format.mantissaBits, Format.minExponent]
    omega
  unfold divCore
  simp only [htarget, ht, hs, Nat.shiftLeft_eq]

/-- The quotient has 53 bits or more where the dividend is so much longer. -/
theorem quotient_full {m₁ m₂ s : ℕ} (h₁ : 0 < m₁) (h₂ : 0 < m₂)
    (hbits : m₂.log2 + 53 ≤ m₁.log2 + s) : 2 ^ 52 ≤ m₁ * 2 ^ s / m₂ := by
  rw [Nat.le_div_iff_mul_le h₂]
  calc 2 ^ 52 * m₂ ≤ 2 ^ 52 * 2 ^ (m₂.log2 + 1) := Nat.mul_le_mul_left _ Nat.lt_log2_self.le
    _ = 2 ^ (m₂.log2 + 53) := by
      rw [← pow_add]
      congr 1
      omega
    _ ≤ 2 ^ (m₁.log2 + s) := Nat.pow_le_pow_right two_pos hbits
    _ = 2 ^ m₁.log2 * 2 ^ s := pow_add _ _ _
    _ ≤ m₁ * 2 ^ s := Nat.mul_le_mul_right _ (Nat.log2_self_le h₁.ne')

theorem rounded_div {m₁ m₂ : ℕ} {e₁ e₂ : ℤ} (h₁ : 0 < m₁) (h₂ : 0 < m₂) :
    Rounded (m₁ * 2 ^ e₁ / (m₂ * 2 ^ e₂))
      (pack (UnpackedFloat.div Format.binary64 (.finite .positive m₁ e₁ h₁)
        (.finite .positive m₂ e₂ h₂))).unpack := by
  obtain ⟨t, ht⟩ : ∃ t, min (e₁ - e₂) (max (m₁.log2 + e₁ - (m₂.log2 + e₂) - 53 : ℤ) (-1074)) = t :=
    ⟨_, rfl⟩
  obtain ⟨s, hs⟩ : ∃ s, (e₁ - e₂ - t).toNat = s := ⟨_, rfl⟩
  have hdiv : UnpackedFloat.div Format.binary64 (.finite .positive m₁ e₁ h₁)
      (.finite .positive m₂ e₂ h₂) = roundWithAccuracy Format.binary64 .positive
        (m₁ * 2 ^ s / m₂) t (accuracyOfFraction (m₁ * 2 ^ s % m₂) m₂) := by
    unfold UnpackedFloat.div
    simp only [divCore_eq ht hs]
    rfl
  rw [hdiv]
  have hexp : e₁ = s + e₂ + t := by omega
  apply rounded_round
  · have hvalue : (m₁ : ℚ) * 2 ^ e₁ / (m₂ * 2 ^ e₂) / 2 ^ t = (m₁ * 2 ^ s : ℕ) / m₂ := by
      rw [hexp, zpow_add₀ two_ne_zero, zpow_add₀ two_ne_zero, zpow_natCast]
      push_cast
      have := (two_zpow_pos e₂).ne'
      have := (two_zpow_pos t).ne'
      field_simp
    rw [hvalue]
    exact cut_div _ h₂
  · by_cases hleast : t ≤ -1074
    · exact le_max_of_le_right hleast
    · have hq : 2 ^ 52 ≤ m₁ * 2 ^ s / m₂ := quotient_full h₁ h₂ (by omega)
      have hlog := (Nat.le_log2 (by omega)).mpr hq
      omega

end Dialogue.Number
