import Dialogue.Proofs.Rounding
import Dialogue.Settings

/-!
# Scaled pauses

What a pause comes to under a factor: nothing at all, the span nearest to the product of the two as
doubles, or the longest span. Only that product is a matter of doubles; what is made of it is told by
its exact value.
-/

namespace Dialogue

open Float.Model (Format UnpackedFloat)
open Float.Model.UnpackedFloat (unpack unpackExponent unpackMantissa)

namespace Number

/-! ## Whole numbers -/

theorem RoundsTo.le {x : ℚ} {r s : ℕ} (hr : RoundsTo x r) (hs : RoundsTo x s) : r ≤ s := by
  by_contra hlt
  have hlo := (abs_le.mp hs.near).2
  have hhi := (abs_le.mp hr.near).1
  have hnext : r = s + 1 := by
    have hle : (r : ℚ) ≤ (s + 1 : ℕ) := by
      push_cast
      linarith
    have hle' : r ≤ s + 1 := by exact_mod_cast hle
    omega
  subst hnext
  push_cast at hhi
  -- the number is halfway between the two, and both would have to be even
  have hhalf : x = s + 1 / 2 := by linarith
  have heven : Even s := hs.even (by rw [hhalf, add_sub_cancel_left, abs_of_pos one_half_pos])
  have heven' : Even (s + 1) := hr.even (by
    rw [hhalf]
    push_cast
    rw [show (s : ℚ) + 1 / 2 - (s + 1) = -(1 / 2) by ring, abs_neg, abs_of_pos one_half_pos])
  exact Nat.even_add_one.mp heven' heven

theorem RoundsTo.unique {x : ℚ} {r s : ℕ} (hr : RoundsTo x r) (hs : RoundsTo x s) : r = s :=
  le_antisymm (hr.le hs) (hs.le hr)

theorem roundHalfEven_rounds (num : ℕ) {den : ℕ} (h : 0 < den) :
    RoundsTo (num / den) (roundHalfEven num den) := by
  have hden : (0 : ℚ) < den := by exact_mod_cast h
  have hsplit : (num : ℚ) / den = (num / den : ℕ) + (num % den : ℕ) / den := by
    rw [div_eq_iff hden.ne', add_mul, div_mul_cancel₀ _ hden.ne']
    exact_mod_cast (Nat.div_add_mod' num den).symm
  have hlt : ((num % den : ℕ) : ℚ) < den := by exact_mod_cast Nat.mod_lt num h
  have hnonneg : (0 : ℚ) ≤ (num % den : ℕ) := Nat.cast_nonneg _
  rw [hsplit]
  unfold roundHalfEven
  generalize num / den = q
  generalize num % den = r at hlt hnonneg
  dsimp only
  by_cases hlow : 2 * r < den
  · rw [if_pos hlow]
    have hlow' : (r : ℚ) / den < 1 / 2 := by
      rw [div_lt_div_iff₀ hden two_pos]
      exact_mod_cast (by omega : r * 2 < 1 * den)
    apply RoundsTo.of_lt
    rw [add_sub_cancel_left, abs_of_nonneg (div_nonneg hnonneg hden.le)]
    exact hlow'
  · rw [if_neg hlow]
    by_cases hhigh : den < 2 * r
    · rw [if_pos hhigh]
      have hhigh' : 1 / 2 < (r : ℚ) / den := by
        rw [div_lt_div_iff₀ two_pos hden]
        exact_mod_cast (by omega : 1 * den < r * 2)
      have hone : (r : ℚ) / den < 1 := (div_lt_one hden).mpr hlt
      apply RoundsTo.of_lt
      push_cast
      rw [abs_lt]
      constructor <;> linarith
    · rw [if_neg hhigh]
      have hhalf : (r : ℚ) / den = 1 / 2 := by
        rw [div_eq_div_iff hden.ne' two_ne_zero]
        exact_mod_cast (by omega : r * 2 = 1 * den)
      rw [hhalf]
      have htie : (if q % 2 = 0 then q else q + 1) = q + q % 2 := by
        split <;> omega
      rw [htie]
      exact roundsTo_half q

/-! ## Exact values -/

/-- The exact value of a double; infinities have none, nor has what is not a number. -/
def value? (x : Float) : Option ℚ :=
  match x.toModel.unpack with
  | .zero _ => some 0
  | .finite .positive m e _ => some (m * 2 ^ e)
  | .finite .negative m e _ => some (-(m * 2 ^ e))
  | _ => none

def magnitude? : UnpackedFloat → Option ℚ
  | .zero _ => some 0
  | .finite _ m e _ => some (m * 2 ^ e)
  | _ => none

theorem value?_abs (x : Float) : (value? x).map abs = magnitude? x.toModel.unpack := by
  unfold value?
  cases x.toModel.unpack with
  | infinity _ => rfl
  | notANumber => rfl
  | zero _ => simp [magnitude?]
  | finite sign m e _ =>
    have hpos : (0 : ℚ) ≤ m * 2 ^ e := mul_nonneg (Nat.cast_nonneg m) (two_zpow_pos e).le
    cases sign <;> simp [magnitude?, abs_of_nonneg hpos]

theorem lt_zero_iff {x : Float} {q : ℚ} (h : value? x = some q) : x < 0.0 ↔ q < 0 := by
  have hzero : (0.0 : Float).toModel.unpack = .zero .positive := rfl
  have hlt : x < 0.0 ↔ x.toModel.unpack.lt (.zero .positive) = true := by
    rw [← hzero]
    exact decide_eq_true_iff
  rw [hlt]
  unfold value? at h
  cases hu : x.toModel.unpack with
  | infinity _ => simp [hu] at h
  | notANumber => simp [hu] at h
  | zero _ =>
    simp only [hu, Option.some.injEq] at h
    subst h
    simp [UnpackedFloat.lt, UnpackedFloat.compare]
  | finite sign m e hm =>
    have hpos : (0 : ℚ) < m * 2 ^ e := mul_pos (by exact_mod_cast hm) (two_zpow_pos e)
    cases sign <;> simp only [hu, Option.some.injEq] at h <;> subst h <;>
      simp [UnpackedFloat.lt, UnpackedFloat.compare, hpos, hpos.le]

theorem unpackExponent_toNat (b : BitVec Format.binary64.numBits) :
    (unpackExponent b).toNat = b.toNat / hiddenBit % 2048 := by
  unfold unpackExponent
  rw [BitVec.toNat_cast, BitVec.extractLsb_toNat, Nat.shiftRight_eq_div_pow]
  rfl

theorem unpackMantissa_toNat (b : BitVec Format.binary64.numBits) :
    (unpackMantissa b).toNat = b.toNat % hiddenBit := by
  unfold unpackMantissa
  rw [BitVec.toNat_cast, BitVec.extractLsb_toNat]
  rfl

def fieldMagnitude? (exponent fraction : ℕ) : Option ℚ :=
  if exponent = 2047 then none
  else if exponent = 0 then some (fraction * 2 ^ (-(1074 : ℕ) : ℤ))
  else some ((hiddenBit + fraction : ℕ) * 2 ^ (exponent - 1075 : ℤ))

theorem magnitude?_unpack (b : BitVec Format.binary64.numBits) :
    magnitude? (unpack Format.binary64 b) =
      fieldMagnitude? (b.toNat / hiddenBit % 2048) (b.toNat % hiddenBit) := by
  rw [← unpackExponent_toNat, ← unpackMantissa_toNat]
  unfold unpack fieldMagnitude?
  dsimp only
  by_cases hinf : unpackExponent b = -BitVec.ofNat _ 1
  · have hfield : (unpackExponent b).toNat = 2047 := by rw [hinf]; rfl
    rw [if_pos hinf, if_pos hfield]
    split <;> rfl
  · have hfield : (unpackExponent b).toNat ≠ 2047 := fun h => hinf (BitVec.eq_of_toNat_eq h)
    rw [if_neg hinf, if_neg hfield]
    by_cases hsmall : unpackExponent b = BitVec.ofNat _ 0
    · have hfield : (unpackExponent b).toNat = 0 := by rw [hsmall]; rfl
      rw [if_pos hsmall, if_pos hfield]
      split
      · next hzero =>
        have hfraction : (unpackMantissa b).toNat = 0 := by rw [hzero]; rfl
        simp [magnitude?, hfraction]
      · rw [hfield]
        rfl
    · have hfield : (unpackExponent b).toNat ≠ 0 := fun h => hsmall (BitVec.eq_of_toNat_eq h)
      rw [if_neg hsmall, if_neg hfield]
      have hfraction : (1#1 ++ unpackMantissa b).toNat = hiddenBit + (unpackMantissa b).toNat := by
        rw [BitVec.toNat_append, ← Nat.shiftLeft_add_eq_or_of_lt (unpackMantissa b).isLt]
        rfl
      simp only [magnitude?, hfraction]
      rfl

/-- The quotient is the magnitude of the exact value. -/
theorem doubleRatio?_cases (x : Float) : value? x = none ∧ doubleRatio? x = none ∨
    ∃ q num den, value? x = some q ∧ doubleRatio? x = some (num, den) ∧ 0 < den ∧
      |q| = num / den := by
  have hpow (n : ℕ) : ((Nat.pow 2 n : ℕ) : ℚ) = 2 ^ n := Nat.cast_pow 2 n
  have hneg (m n : ℕ) {q : ℚ} (hq : value? x = some q) (habs : |q| = m * 2 ^ (-(n : ℤ))) :
      ∃ q num den, value? x = some q ∧ some (m, Nat.pow 2 n) = some (num, den) ∧ 0 < den ∧
        |q| = num / den := by
    refine ⟨q, m, _, hq, rfl, Nat.pow_pos two_pos, ?_⟩
    rw [habs, hpow, zpow_neg, zpow_natCast, div_eq_mul_inv]
  have habs : (value? x).map abs = fieldMagnitude? (x.toBits.toNat / hiddenBit % 2048)
      (x.toBits.toNat % hiddenBit) := (value?_abs x).trans (magnitude?_unpack _)
  unfold doubleRatio?
  unfold fieldMagnitude? at habs
  dsimp only
  generalize x.toBits.toNat / hiddenBit % 2048 = exponent at habs ⊢
  generalize x.toBits.toNat % hiddenBit = fraction at habs ⊢
  generalize 1074 = least at habs ⊢
  by_cases hinf : exponent = 2047
  · rw [if_pos hinf] at habs ⊢
    exact .inl ⟨Option.map_eq_none_iff.mp habs, rfl⟩
  · right
    rw [if_neg hinf] at habs ⊢
    by_cases hsmall : exponent = 0
    · rw [if_pos hsmall] at habs ⊢
      obtain ⟨q, hq, habs⟩ := Option.map_eq_some_iff.mp habs
      exact hneg _ _ hq habs
    · rw [if_neg hsmall] at habs ⊢
      obtain ⟨q, hq, habs⟩ := Option.map_eq_some_iff.mp habs
      by_cases hlow : exponent < 1075
      · rw [if_pos hlow]
        have hexponent : (exponent - 1075 : ℤ) = -((1075 - exponent : ℕ) : ℤ) := by omega
        rw [hexponent] at habs
        exact hneg _ _ hq habs
      · rw [if_neg hlow]
        refine ⟨q, _, _, hq, rfl, one_pos, ?_⟩
        have hexponent : (exponent - 1075 : ℤ) = ((exponent - 1075 : ℕ) : ℤ) := by omega
        rw [habs, Nat.cast_mul, hpow, hexponent, zpow_natCast, Nat.cast_one, div_one]

end Number

namespace Duration

open Number (value? RoundsTo)

/-- A number of seconds that is not negative, to the nearest nanosecond. -/
def Near (x : Float) (d : Duration) : Prop :=
  ∃ q, value? x = some q ∧ 0 ≤ q ∧ RoundsTo (q * 10 ^ 9) d.nanos

theorem ofSeconds?_eq_some_iff (x : Float) (d : Duration) :
    ofSeconds? x = some d ↔ Near x d ∧ d.nanos ≤ longest.nanos := by
  unfold ofSeconds?
  rcases Number.doubleRatio?_cases x with ⟨hvalue, hratio⟩ | ⟨q, num, den, hvalue, hratio, hden, habs⟩
  · simp [Near, hvalue, hratio]
  · by_cases hneg : q < 0
    · rw [if_pos ((Number.lt_zero_iff hvalue).mpr hneg)]
      refine ⟨nofun, fun ⟨⟨q', hvalue', hpos, _⟩, _⟩ => ?_⟩
      cases hvalue.symm.trans hvalue'
      exact absurd hneg (not_lt.mpr hpos)
    · rw [if_neg (mt (Number.lt_zero_iff hvalue).mp hneg), hratio]
      have hpos : 0 ≤ q := not_lt.mp hneg
      have hround : RoundsTo (q * 10 ^ 9) (Number.roundHalfEven (num * nanosPerSecond) den) := by
        have hnanos : q * 10 ^ 9 = (num * nanosPerSecond : ℕ) / den := by
          rw [← abs_of_nonneg hpos, habs, div_mul_eq_mul_div, Nat.cast_mul]
          norm_num [nanosPerSecond]
        rw [hnanos]
        exact Number.roundHalfEven_rounds _ hden
      dsimp only
      constructor
      · intro h
        split at h
        · next hle =>
          cases h
          exact ⟨⟨q, hvalue, hpos, hround⟩, hle⟩
        · cases h
      · intro ⟨⟨q', hvalue', _, hround'⟩, hle⟩
        cases hvalue.symm.trans hvalue'
        obtain rfl : d = ⟨_⟩ := congrArg Duration.mk (hround'.unique hround)
        exact if_pos hle

/-- What a factor, and the double that it makes of a span in seconds, give. -/
inductive Scaled (factor product : Float) : Duration → Prop
  | nothing (h : ¬ (factor.isFinite = true ∧ 0.0 < factor)) : Scaled factor product zero
  | nearest {d : Duration} (h : factor.isFinite = true ∧ 0.0 < factor) (hd : Near product d)
    (hle : d.nanos ≤ longest.nanos) : Scaled factor product d
  | longest (h : factor.isFinite = true ∧ 0.0 < factor)
    (hlong : ∀ d, Near product d → longest.nanos < d.nanos) : Scaled factor product longest

theorem Near.unique {x : Float} {d d' : Duration} (h : Near x d) (h' : Near x d') : d = d' := by
  obtain ⟨q, hq, _, hd⟩ := h
  obtain ⟨q', hq', _, hd'⟩ := h'
  cases hq.symm.trans hq'
  exact congrArg Duration.mk (hd.unique hd')

theorem Scaled.unique {factor product : Float} {d d' : Duration} (h : Scaled factor product d)
    (h' : Scaled factor product d') : d = d' := by
  cases h with
  | nothing hf =>
    cases h' with
    | nothing _ => rfl
    | nearest hf' _ _ => exact absurd hf' hf
    | longest hf' _ => exact absurd hf' hf
  | nearest hf hd hle =>
    cases h' with
    | nothing hf' => exact absurd hf hf'
    | nearest _ hd' _ => exact hd.unique hd'
    | longest _ hlong => exact absurd (hlong _ hd) (Nat.not_lt.mpr hle)
  | longest hf hlong =>
    cases h' with
    | nothing hf' => exact absurd hf hf'
    | nearest _ hd hle => exact absurd (hlong _ hd) (Nat.not_lt.mpr hle)
    | longest _ _ => rfl

theorem scale_scaled (d : Duration) (factor : Float) :
    Scaled factor (d.toSeconds * factor) (d.scale factor) := by
  unfold scale
  by_cases h : factor.isFinite = true ∧ 0.0 < factor
  · rw [if_pos (by simpa using h)]
    cases hs : ofSeconds? (d.toSeconds * factor) with
    | none =>
      refine .longest h fun d' hd => not_le.mp fun hle => ?_
      cases hs.symm.trans ((ofSeconds?_eq_some_iff _ d').mpr ⟨hd, hle⟩)
    | some d' =>
      obtain ⟨hd, hle⟩ := (ofSeconds?_eq_some_iff _ _).mp hs
      exact .nearest h hd hle
  · rw [if_neg (by simpa using h)]
    exact .nothing h

theorem ceilMillis_le_iff (d : Duration) (n : ℕ) : d.ceilMillis ≤ n ↔ d.nanos ≤ n * 1000000 := by
  unfold ceilMillis Number.ceilDiv
  omega

end Duration

/-- A pause comes to the one span that is told by its product with the factor. -/
theorem Settings.scaledWait_eq_iff (s : Settings) (wait d : Duration) :
    s.scaledWait wait = d ↔ Duration.Scaled s.timeScale (wait.toSeconds * s.timeScale) d := by
  have h := wait.scale_scaled s.timeScale
  exact ⟨fun hd => hd ▸ h, h.unique⟩

example : Settings.standard.scaledWait (.ofMillis 2000) = .ofMillis 2000 := by
  decide +kernel

end Dialogue
