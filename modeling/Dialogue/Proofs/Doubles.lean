import Dialogue.Number.Decimal
import Dialogue.Proofs.Rounding

/-!
# The doubles of numerals

A numeral with a coefficient and an exponent is read as the double nearest to it in exact
arithmetic, whichever way that is computed: as a product or a quotient with an exact power of ten,
with a significand of any length, or not at all where the numeral is far too large or too small.
-/

namespace Dialogue.Number

open Float.Model (Format UnpackedFloat pack totalExponent)
open Float.Model.UnpackedFloat

/-! ## Decimals -/

theorem rounded_ofScientific {c : ℕ} {e : ℤ} (hc : c ≠ 0) (hlo : -(2048 + c.log2) ≤ e)
    (hhi : e ≤ 2048) : Rounded (c * 10 ^ e) (Float.Model.ofScientific c e).unpack := by
  unfold Float.Model.ofScientific UnpackedFloat.ofScientific
  have hhuge : ¬ e > 2 ^ 11 := by omega
  have htiny : ¬ e < -(2 ^ 11 + c.log2) := by omega
  rw [dif_neg hc, if_neg hhuge, if_neg htiny]
  have hpos : 0 < c := Nat.pos_of_ne_zero hc
  by_cases he : 0 ≤ e
  · rw [if_pos he]
    have hvalue : (c : ℚ) * (10 : ℚ) ^ e =
        (c <<< 53 : ℕ) * 2 ^ (-53 : ℤ) * ((10 ^ e.toNat : ℕ) * 2 ^ (0 : ℤ)) := by
      have hpow : (10 : ℚ) ^ e = (10 ^ e.toNat : ℕ) := by
        push_cast
        rw [← zpow_natCast, Int.toNat_of_nonneg he]
      have hone : ((2 ^ 53 : ℕ) : ℚ) * 2 ^ (-53 : ℤ) = 1 := by norm_num
      rw [hpow, Nat.shiftLeft_eq, Nat.cast_mul, zpow_zero, mul_one, mul_assoc (c : ℚ), hone,
        mul_one]
    rw [hvalue]
    apply rounded_mul
    show 2 ^ 52 ≤ c <<< 53 * 10 ^ e.toNat
    rw [Nat.shiftLeft_eq, mul_right_comm]
    exact le_mul_of_one_le_of_le (Nat.mul_pos hpos (Nat.pow_pos (by decide))) (by decide)
  · rw [if_neg he]
    have hvalue : (c : ℚ) * (10 : ℚ) ^ e =
        c * 2 ^ (0 : ℤ) / ((10 ^ (-e).toNat : ℕ) * 2 ^ (0 : ℤ)) := by
      have hpow : (10 : ℚ) ^ e = ((10 ^ (-e).toNat : ℕ) : ℚ)⁻¹ := by
        push_cast
        rw [← zpow_natCast, Int.toNat_of_nonneg (by omega), zpow_neg, inv_inv]
      rw [hpow, zpow_zero, mul_one, mul_one, div_eq_mul_inv]
    rw [hvalue]
    apply rounded_div

def Exact (x : ℚ) (u : UnpackedFloat) : Prop :=
  ∃ m e, ∃ h : 0 < m, u = .finite .positive m e h ∧ 2 ^ 52 ≤ m ∧ (m : ℚ) * 2 ^ e = x

theorem Rounded.exact {c : ℕ} {u : UnpackedFloat} (h : Rounded c u) (hc : 0 < c)
    (hlt : c < 2 ^ 53) : Exact c u := by
  have hone : (1 : ℚ) ≤ c := by exact_mod_cast hc
  have hc' : (c : ℚ) ≤ 2 ^ 53 := by exact_mod_cast hlt.le
  cases h with
  | zero h =>
    have hsmall := vanishing_lt_one
    linarith
  | infinite h =>
    have hlarge := lt_overflowing
    linarith
  | @finite m e h _ _ =>
    have hvalue : (m : ℚ) * 2 ^ e = c := by
      have hzero := h.near c 0 hlt (by decide)
      rw [zpow_zero, mul_one, sub_self, abs_zero] at hzero
      exact (sub_eq_zero.mp (abs_nonpos_iff.mp hzero)).symm
    refine ⟨m, e, h.normal.pos, rfl, ?_, hvalue⟩
    refine h.normal.full.resolve_left ?_
    rintro rfl
    have hm : (m : ℚ) < 2 ^ 53 := by exact_mod_cast h.normal.lt
    have htiny : (2 : ℚ) ^ 53 * 2 ^ (-1074 : ℤ) ≤ 1 := by
      rw [← zpow_natCast, ← zpow_add₀ two_ne_zero, ← zpow_zero (2 : ℚ)]
      exact two_zpow_le (by decide)
    have hlt' := mul_lt_mul_of_pos_right hm (two_zpow_pos (-1074))
    linarith

theorem exact_toFloat {c : ℕ} (hc : 0 < c) (hlt : c < 2 ^ 53) :
    Exact c c.toUInt64.toFloat.toModel.unpack := by
  refine Rounded.exact ?_ hc hlt
  have hlog : c.log2 ≤ 52 := Nat.le_of_lt_succ ((Nat.log2_lt hc.ne').mpr hlt)
  have hword : c.toUInt64.toNat = c := UInt64.toNat_ofNat_of_lt' (hlt.trans (by decide))
  have hround : c.toUInt64.toFloat.toModel =
      pack (UnpackedFloat.round Format.binary64 .positive c 0) := by
    show pack (UnpackedFloat.normalize Format.binary64 (c.toUInt64.toNat : ℤ) 0 .positive) = _
    rw [hword]
    unfold UnpackedFloat.normalize
    rw [compare_gt_iff_gt.mpr (by exact_mod_cast hc)]
    rfl
  have hshift : (0 - max (c.log2 + 0 - 52 : ℤ) (-1074)).toNat = 52 - c.log2 := by omega
  rw [hround]
  unfold UnpackedFloat.round decreaseExponent
  dsimp only
  rw [target_eq, hshift, Nat.shiftLeft_eq]
  apply rounded_round
  · show (c : ℚ) / 2 ^ (0 - ((52 - c.log2 : ℕ) : ℤ)) = (c * 2 ^ (52 - c.log2) : ℕ)
    rw [zero_sub, zpow_neg, div_inv_eq_mul, zpow_natCast]
    push_cast
    rfl
  · have hfull : 2 ^ 52 ≤ c * 2 ^ (52 - c.log2) := by
      calc 2 ^ 52 = 2 ^ c.log2 * 2 ^ (52 - c.log2) := by rw [← pow_add, Nat.add_sub_cancel' hlog]
        _ ≤ c * 2 ^ (52 - c.log2) := Nat.mul_le_mul_right _ (Nat.log2_self_le hc.ne')
    have hlog' := (Nat.le_log2 (by omega)).mpr hfull
    omega

def isPower (e : ℕ) : UnpackedFloat → Bool
  | .finite .positive m x _ => 2 ^ 52 ≤ m && m * 2 ^ x.toNat == 10 ^ e * 2 ^ (-x).toNat
  | _ => false

theorem exact_of_isPower {e : ℕ} {u : UnpackedFloat} (h : isPower e u = true) :
    Exact (10 ^ e) u := by
  unfold isPower at h
  split at h
  · next m x hm =>
    simp only [Bool.and_eq_true, decide_eq_true_eq, beq_iff_eq] at h
    refine ⟨m, x, hm, rfl, h.1, ?_⟩
    have hx : x = x.toNat - (-x).toNat := by omega
    have hq : (m : ℚ) * 2 ^ x.toNat = 10 ^ e * 2 ^ (-x).toNat := by exact_mod_cast h.2
    rw [hx, zpow_sub₀ two_ne_zero, zpow_natCast, zpow_natCast, ← mul_div_assoc, hq,
      mul_div_cancel_right₀ _ (by positivity)]
  · cases h

theorem isPower_table : ∀ e : Fin Float.exactlyRepresentablePowersOfTen.size,
    isPower e Float.exactlyRepresentablePowersOfTen[e].toModel.unpack = true := by
  decide +kernel

theorem exact_power {e : ℕ} (he : e < Float.exactlyRepresentablePowersOfTen.size) :
    Exact (10 ^ e) Float.exactlyRepresentablePowersOfTen[e].toModel.unpack :=
  exact_of_isPower (isPower_table ⟨e, he⟩)

theorem Exact.mul {x y : ℚ} {a b : Float} (ha : Exact x a.toModel.unpack)
    (hb : Exact y b.toModel.unpack) : Rounded (x * y) (a * b).toModel.unpack := by
  obtain ⟨m₁, e₁, h₁, hu₁, hfull₁, rfl⟩ := ha
  obtain ⟨m₂, e₂, h₂, hu₂, hfull₂, rfl⟩ := hb
  show Rounded _ (pack (UnpackedFloat.mul Format.binary64 a.toModel.unpack b.toModel.unpack)).unpack
  rw [hu₁, hu₂]
  apply rounded_mul
  exact le_mul_of_le_of_one_le hfull₁ h₂

theorem Exact.div {x y : ℚ} {a b : Float} (ha : Exact x a.toModel.unpack)
    (hb : Exact y b.toModel.unpack) : Rounded (x / y) (a / b).toModel.unpack := by
  obtain ⟨m₁, e₁, h₁, hu₁, _, rfl⟩ := ha
  obtain ⟨m₂, e₂, h₂, hu₂, _, rfl⟩ := hb
  show Rounded _ (pack (UnpackedFloat.div Format.binary64 a.toModel.unpack b.toModel.unpack)).unpack
  rw [hu₁, hu₂]
  apply rounded_div

theorem rounded_float_ofScientific {c : ℕ} {e : ℤ} (hc : c ≠ 0) (hlo : -(2048 + c.log2) ≤ e)
    (hhi : e ≤ 2048) :
    Rounded (c * 10 ^ e) (Float.ofScientific c (e < 0) e.natAbs).toModel.unpack := by
  unfold Float.ofScientific
  by_cases hfast : c < 2 ^ 53 ∧ e.natAbs ≤ 22
  · have hc' := exact_toFloat (Nat.pos_of_ne_zero hc) hfast.1
    have hpow := exact_power (e := e.natAbs) (Nat.lt_succ_of_le hfast.2)
    rw [dif_pos hfast]
    by_cases he : e < 0
    · have hvalue : (10 : ℚ) ^ e = (10 ^ e.natAbs)⁻¹ := by
        rw [← zpow_natCast, ← zpow_neg]
        congr 1
        omega
      simp only [he, decide_true, if_true]
      rw [hvalue, ← div_eq_mul_inv]
      exact hc'.div hpow
    · have hvalue : (10 : ℚ) ^ e = 10 ^ e.natAbs := by
        rw [← zpow_natCast]
        congr 1
        omega
      simp only [he, decide_false, Bool.false_eq_true, if_false]
      rw [hvalue]
      exact hc'.mul hpow
  · rw [dif_neg hfast]
    have hsame :
        (if decide (e < 0) = true then Int.negOfNat e.natAbs else Int.ofNat e.natAbs) = e := by
      by_cases he : e < 0
      · rw [if_pos (decide_eq_true he), Int.negOfNat_eq]
        show -(e.natAbs : ℤ) = e
        omega
      · rw [if_neg (by simpa using he)]
        show (e.natAbs : ℤ) = e
        omega
    show Rounded _ (Float.Model.ofScientific c _).unpack
    rw [hsame]
    exact rounded_ofScientific hc hlo hhi

/-! ## The double of a numeral -/

theorem unpack_zero : (0.0 : Float).toModel.unpack = .zero .positive := rfl

theorem unpack_infinity : (1.0 / 0.0 : Float).toModel.unpack = .infinity .positive := rfl

theorem lt_ten_pow (c : ℕ) : (c : ℚ) < 10 ^ (c.log2 / 3 + 1) := by
  have hc : c < 10 ^ (c.log2 / 3 + 1) := by
    calc c < 2 ^ (c.log2 + 1) := Nat.lt_log2_self
      _ ≤ 2 ^ (3 * (c.log2 / 3 + 1)) := Nat.pow_le_pow_right two_pos (by omega)
      _ = 8 ^ (c.log2 / 3 + 1) := pow_mul 2 3 _
      _ ≤ 10 ^ (c.log2 / 3 + 1) := Nat.pow_le_pow_left (by decide) _
  exact_mod_cast hc

theorem ten_pow_le {c : ℕ} (hc : c ≠ 0) : (10 : ℚ) ^ (3 * (c.log2 / 10)) ≤ c := by
  have hc : 10 ^ (3 * (c.log2 / 10)) ≤ c := by
    calc 10 ^ (3 * (c.log2 / 10)) = 1000 ^ (c.log2 / 10) := pow_mul 10 3 _
      _ ≤ 1024 ^ (c.log2 / 10) := Nat.pow_le_pow_left (by decide) _
      _ = 2 ^ (10 * (c.log2 / 10)) := (pow_mul 2 10 _).symm
      _ ≤ 2 ^ c.log2 := Nat.pow_le_pow_right two_pos (by omega)
      _ ≤ c := Nat.log2_self_le hc
  exact_mod_cast hc

theorem two_zpow_le_ten_zpow {k : ℤ} (hk : 0 ≤ k) : (2 : ℚ) ^ (3 * k) ≤ 10 ^ k := by
  rw [zpow_mul]
  exact zpow_le_zpow_left₀ hk (by norm_num) (by norm_num)

theorem ten_zpow_le_vanishing {k : ℤ} (hk : k ≤ -400) : (10 : ℚ) ^ k ≤ vanishing := by
  have hinv := inv_anti₀ (two_zpow_pos _) (two_zpow_le_ten_zpow (by omega : 0 ≤ -k))
  rw [← zpow_neg, ← zpow_neg, neg_neg] at hinv
  calc (10 : ℚ) ^ k ≤ 2 ^ (-(3 * -k)) := hinv
    _ ≤ 2 ^ (-1074 - 1 : ℤ) := two_zpow_le (by omega)
    _ = vanishing := zpow_sub_one₀ two_ne_zero _

theorem overflowing_le_ten_zpow {k : ℤ} (hk : 400 ≤ k) : overflowing ≤ (10 : ℚ) ^ k := by
  calc overflowing ≤ 2 ^ (53 : ℤ) * 2 ^ (971 : ℤ) :=
        mul_le_mul_of_nonneg_right (by norm_num) (two_zpow_pos _).le
    _ = 2 ^ (53 + 971 : ℤ) := (zpow_add₀ two_ne_zero _ _).symm
    _ ≤ 2 ^ (3 * k) := two_zpow_le (by omega)
    _ ≤ 10 ^ k := two_zpow_le_ten_zpow (by omega)

/-- **Reading decimals.** What is settled without computing the product is settled rightly. -/
theorem rounded_nearestDouble (c : ℕ) (e : ℤ) :
    Rounded (c * (10 : ℚ) ^ e) (nearestDouble c e).toModel.unpack := by
  have hten : (0 : ℚ) < 10 ^ e := zpow_pos (by norm_num) e
  have hadd : ∀ k : ℕ, (10 : ℚ) ^ k * 10 ^ e = 10 ^ (k + e) := by
    intro k
    rw [zpow_add₀ (by norm_num), zpow_natCast]
  unfold nearestDouble
  dsimp only
  by_cases hc : c = 0
  · subst hc
    rw [if_pos (by simp)]
    rw [unpack_zero, Nat.cast_zero, zero_mul]
    exact .zero (by unfold vanishing; positivity)
  · by_cases hlow : (c.log2 / 3 : ℕ) + e < -400
    · rw [if_pos (by rw [decide_eq_true hlow, Bool.or_true]), unpack_zero]
      apply Rounded.zero
      calc (c : ℚ) * 10 ^ e ≤ 10 ^ (c.log2 / 3 + 1) * 10 ^ e :=
            mul_le_mul_of_nonneg_right (lt_ten_pow c).le hten.le
        _ = 10 ^ (((c.log2 / 3 + 1 : ℕ) : ℤ) + e) := hadd _
        _ ≤ vanishing := ten_zpow_le_vanishing (by push_cast at hlow ⊢; omega)
    · rw [if_neg (by rw [decide_eq_false hlow, decide_eq_false hc, Bool.or_false]; decide)]
      by_cases hhigh : 400 < (3 * (c.log2 / 10) : ℕ) + e
      · rw [if_pos hhigh, unpack_infinity]
        apply Rounded.infinite
        calc overflowing ≤ 10 ^ (((3 * (c.log2 / 10) : ℕ) : ℤ) + e) :=
              overflowing_le_ten_zpow hhigh.le
          _ = 10 ^ (3 * (c.log2 / 10)) * 10 ^ e := (hadd _).symm
          _ ≤ c * 10 ^ e := mul_le_mul_of_nonneg_right (ten_pow_le hc) hten.le
      · rw [if_neg hhigh]
        exact rounded_float_ofScientific hc (by omega) (by omega)

/-! ## Signs -/

theorem eq_of_unpack {x y : Float} (h : x.toModel.unpack = y.toModel.unpack) : x = y := by
  apply Float.toBits_inj.mp
  apply UInt64.toBitVec_inj.mp
  exact (unpack_inj_of_valid x.toModel.valid y.toModel.valid (by decide)).mp h

inductive Fit : UnpackedFloat → Prop
  | zero (sign : Sign) : Fit (.zero sign)
  | positive {m : ℕ} {e : ℤ} (h : 0 < m) : Fit (.finite .positive m e h)

theorem fit_iff {x : Float} : Fit x.toModel.unpack ↔ x.isFinite = true ∧ 0.0 ≤ x := by
  have hfinite : x.isFinite = x.toModel.unpack.isFinite := rfl
  have hle : 0.0 ≤ x ↔ UnpackedFloat.le (.zero .positive) x.toModel.unpack = true := by
    show decide ((0.0 : Float).toModel ≤ x.toModel) = true ↔ _
    rw [decide_eq_true_eq]
    rfl
  rw [hfinite, hle]
  cases x.toModel.unpack with
  | zero sign => exact ⟨fun _ => ⟨rfl, rfl⟩, fun _ => .zero sign⟩
  | notANumber => exact ⟨nofun, nofun⟩
  | infinity _ => exact ⟨nofun, nofun⟩
  | finite sign m e h =>
    cases sign with
    | positive => exact ⟨fun _ => ⟨rfl, rfl⟩, fun _ => .positive h⟩
    | negative => exact ⟨nofun, nofun⟩

theorem Rounded.fit_iff {q : ℚ} {u : UnpackedFloat} (h : Rounded q u) :
    Fit u ↔ q < overflowing := by
  cases h with
  | zero h => exact ⟨fun _ => h.trans_lt vanishing_lt_overflowing, fun _ => .zero _⟩
  | finite h _ hhi => exact ⟨fun _ => hhi, fun _ => .positive h.normal.pos⟩
  | infinite h => exact ⟨nofun, fun hlt => absurd hlt (not_lt.mpr h)⟩

/-- With a minus, what does not vanish is below zero. -/
theorem Rounded.fit_neg_iff {q : ℚ} {u : UnpackedFloat} (h : Rounded q u) :
    Fit (pack u.neg).unpack ↔ q ≤ vanishing := by
  cases h with
  | zero h =>
    refine ⟨fun _ => h, fun _ => ?_⟩
    rw [UnpackedFloat.neg, unpack_pack_zero]
    exact .zero _
  | @finite m e h hlo _ =>
    refine ⟨fun hfit => ?_, fun hle => absurd hle (not_le.mpr hlo)⟩
    rw [UnpackedFloat.neg] at hfit
    by_cases he : e ≤ 971
    · rw [unpack_pack_normal _ h.normal he] at hfit
      cases hfit
    · rw [unpack_pack_large _ h.normal.pos (by omega)] at hfit
      cases hfit
  | infinite h =>
    refine ⟨fun hfit => ?_, fun hle => ?_⟩
    · rw [UnpackedFloat.neg, unpack_pack_infinity] at hfit
      cases hfit
    · exact absurd (hle.trans_lt vanishing_lt_overflowing) (not_lt.mpr h)

/-- `x` is the double of a numeral, by exact arithmetic. A numeral that is too large has none, nor
has one below zero, unless it vanishes. -/
inductive Denotes (x : Float) : Numeral → Prop
  | positive {c : ℕ} {e : ℤ} (h : Rounded (c * 10 ^ e) x.toModel.unpack)
    (hlt : c * 10 ^ e < overflowing) : Denotes x ⟨false, .finite c e⟩
  | negative {c : ℕ} {e : ℤ} (h : c * 10 ^ e ≤ vanishing)
    (hx : x.toModel.unpack = .zero .negative) : Denotes x ⟨true, .finite c e⟩

theorem unpack_neg (x : Float) : (-x).toModel.unpack = (pack x.toModel.unpack.neg).unpack :=
  rfl

theorem neg_nearestDouble_vanishing {c : ℕ} {e : ℤ} (h : (c : ℚ) * 10 ^ e ≤ vanishing) :
    (-nearestDouble c e).toModel.unpack = .zero .negative := by
  rw [unpack_neg, (rounded_nearestDouble c e).unique (.zero h)]
  exact unpack_pack_zero .negative

/-- **Reading numerals.** A double that is finite and not below zero is the value of a numeral just
if it is the one that exact arithmetic gives. -/
theorem denotes_iff {x : Float} {n : Numeral} :
    Denotes x n ↔ n.toFloat = x ∧ x.isFinite = true ∧ 0.0 ≤ x := by
  rw [← fit_iff]
  constructor
  · intro h
    cases h with
    | @positive c e h hlt =>
      exact ⟨eq_of_unpack ((rounded_nearestDouble c e).unique h), h.fit_iff.mpr hlt⟩
    | @negative c e h hx =>
      rw [hx]
      exact ⟨eq_of_unpack ((neg_nearestDouble_vanishing h).trans hx.symm), .zero _⟩
  · rintro ⟨rfl, hfit⟩
    obtain ⟨negative, magnitude⟩ := n
    cases magnitude with
    | finite c e =>
      have hr := rounded_nearestDouble c e
      cases negative with
      | false => exact .positive hr (hr.fit_iff.mp hfit)
      | true =>
        have hle := hr.fit_neg_iff.mp hfit
        exact .negative hle (neg_nearestDouble_vanishing hle)
    | infinite => cases negative <;> cases hfit
    | undefined => cases negative <;> cases hfit

end Dialogue.Number
