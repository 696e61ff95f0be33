import Mathlib.Algebra.Order.Field.Power
import Mathlib.Data.Rat.Cast.Order
import Mathlib.Tactic.GCongr
import Mathlib.Tactic.NormNum
import Mathlib.Tactic.Positivity
import Mathlib.Tactic.Ring
import SharpTree.Decimal.Scientific

/-!
# How far rounding moves a double

A rounded mantissa is the one that was cut off or one more, and it may have to be
cut again. So a step of arithmetic raises the exact result by at most its
`2 ^ 52`th part, and lowers it by at most twice that. The result is no infinity
as long as the raised one is less than `2 ^ 1024`, and an infinity as soon as
the lowered one is not.
-/

namespace SharpTree

open Float.Model Float.Model.UnpackedFloat

/-! ## Mantissas -/

theorem shiftRight_mantissa (x : ExtendedMantissa) (k : Nat) : (x >>> k).mantissa = x.mantissa / 2 ^ k := by
  induction k with
  | zero => exact (Nat.div_one _).symm
  | succ k ih =>
    show (x >>> k).mantissa / 2 = _
    rw [ih, Nat.div_div_eq_div_mul, Nat.pow_succ]

theorem roundedMantissa_bounds (x : ExtendedMantissa) :
    x.mantissa ≤ x.roundedMantissa ∧ x.roundedMantissa ≤ x.mantissa + 1 := by
  obtain ⟨m, r, s⟩ := x
  cases r <;> cases s <;>
    simp [ExtendedMantissa.roundedMantissa, ExtendedMantissa.accuracy, Accuracy.roundToNearestEven]
  omega

theorem ne_zero_of_log2 {m : Nat} (hm : 52 ≤ m.log2) : m ≠ 0 := by
  rintro rfl
  exact absurd hm (by decide)

theorem log2_cut {m : Nat} (hm : 52 ≤ m.log2) : (m / 2 ^ (m.log2 - 52)).log2 = 52 := by
  have h0 := ne_zero_of_log2 hm
  have hsplit : ∀ j, 2 ^ j * 2 ^ (m.log2 - 52) = 2 ^ (m.log2 - 52 + j) :=
    fun j => by rw [← Nat.pow_add, Nat.add_comm]
  have hlow : 2 ^ 52 ≤ m / 2 ^ (m.log2 - 52) := by
    rw [Nat.le_div_iff_mul_le (Nat.two_pow_pos _), hsplit, Nat.sub_add_cancel hm]
    exact Nat.log2_self_le h0
  have hhigh : m / 2 ^ (m.log2 - 52) < 2 ^ 53 := by
    rw [Nat.div_lt_iff_lt_mul (Nat.two_pow_pos _), hsplit]
    exact Nat.lt_of_lt_of_eq Nat.lt_log2_self (by congr 1; omega)
  exact (Nat.log2_eq_iff (by omega)).mpr ⟨hlow, hhigh⟩

/-- A mantissa is cut to 53 bits, or to fewer if its exponent would be too low otherwise. -/
theorem shiftToTargetExponent_eq (m : Nat) (e : Int) (acc : Accuracy) :
    ∃ x k, shiftToTargetExponent .binary64 m e acc = (x, e + (k : Nat)) ∧ x.mantissa = m / 2 ^ k ∧
      k = (max (m.log2 + e - 52) (-1074) - e).toNat := by
  have hk : (Format.binary64.targetExponent (totalExponent m e) - e).toNat =
      (max (m.log2 + e - 52) (-1074) - e).toNat := by
    show (max ((m.log2 : Int) + 1 + e - 53) (-1074) - e).toNat = _
    omega
  refine ⟨ExtendedMantissa.ofMantissaAndAccuracy m acc >>> (max (m.log2 + e - 52) (-1074) - e).toNat, _, ?_, ?_,
    rfl⟩
  · rw [shiftToTargetExponent, shiftToExponent, hk]
  · rw [shiftRight_mantissa]
    cases acc with
    | exact => rfl
    | inexact o => cases o <;> rfl

theorem shiftToTargetExponent_exact {m : Nat} {e : Int} (hm : 52 ≤ m.log2) (he : -1022 ≤ m.log2 + e) :
    ∃ x, shiftToTargetExponent .binary64 m e .exact = (x, e + (m.log2 - 52 : Nat)) ∧
      x.mantissa = m / 2 ^ (m.log2 - 52) := by
  obtain ⟨x, k, hx, hcut, hk⟩ := shiftToTargetExponent_eq m e .exact
  have hk : k = m.log2 - 52 := by omega
  subst hk
  exact ⟨x, hx, hcut⟩

theorem cut_le (m k : Nat) (e : Int) : ((m / 2 ^ k : Nat) : ℚ) * 2 ^ (e + k) ≤ m * 2 ^ e := by
  have hcut : ((m / 2 ^ k : Nat) : ℚ) * 2 ^ k ≤ m := by exact_mod_cast Nat.div_mul_le_self m (2 ^ k)
  calc ((m / 2 ^ k : Nat) : ℚ) * 2 ^ (e + k) = (m / 2 ^ k : Nat) * 2 ^ k * 2 ^ e := by
        rw [zpow_add₀ (by norm_num), zpow_natCast]; ring
    _ ≤ m * 2 ^ e := by gcongr

theorem le_log2_of_le {m n : Nat} (hm : 52 ≤ m.log2) (h : m ≤ n) : 52 ≤ n.log2 := by
  have h0 := ne_zero_of_log2 hm
  exact (Nat.le_log2 (by omega)).mpr (Nat.le_trans ((Nat.le_log2 h0).mp hm) h)

theorem two_pow_cut_le {m : Nat} (hm : 52 ≤ m.log2) : (2 : ℚ) ^ (m.log2 - 52) ≤ m / 2 ^ 52 := by
  have h0 := ne_zero_of_log2 hm
  have hpow : 2 ^ (m.log2 - 52) * 2 ^ 52 ≤ m := by
    rw [← Nat.pow_add, Nat.sub_add_cancel hm]
    exact Nat.log2_self_le h0
  rw [le_div_iff₀ (by positivity)]
  exact_mod_cast hpow

theorem le_cut {m : Nat} (hm : 52 ≤ m.log2) (e : Int) :
    m * 2 ^ e * (1 - 1 / 2 ^ 52) ≤ ((m / 2 ^ (m.log2 - 52) : Nat) : ℚ) * 2 ^ (e + (m.log2 - 52 : Nat)) := by
  have hcut : (m : ℚ) ≤ (m / 2 ^ (m.log2 - 52) : Nat) * 2 ^ (m.log2 - 52) + 2 ^ (m.log2 - 52) := by
    exact_mod_cast (Nat.lt_div_mul_add (Nat.two_pow_pos _)).le
  have hstep := two_pow_cut_le hm
  calc (m : ℚ) * 2 ^ e * (1 - 1 / 2 ^ 52) = (m - m / 2 ^ 52) * 2 ^ e := by ring
    _ ≤ (m / 2 ^ (m.log2 - 52) : Nat) * 2 ^ (m.log2 - 52) * (2 : ℚ) ^ e := by
        gcongr
        exact sub_le_iff_le_add.mpr (hcut.trans (by gcongr))
    _ = (m / 2 ^ (m.log2 - 52) : Nat) * 2 ^ (e + (m.log2 - 52 : Nat)) := by
        rw [zpow_add₀ (by norm_num), zpow_natCast]; ring

/-- Rounding raises a number by at most its `2 ^ 52`th part, and lowers it by at most twice that. -/
theorem roundWithAccuracy_bounds (s : Sign) {m : Nat} {e : Int} (hm : 52 ≤ m.log2) (he : 0 ≤ m.log2 + e) :
    ∃ m' e' h, roundWithAccuracy .binary64 s m e .exact = .finite s m' e' h ∧ m'.log2 = 52 ∧ -52 ≤ e' ∧
      m * 2 ^ e * (1 - 1 / 2 ^ 52) ^ 2 ≤ (m' : ℚ) * 2 ^ e' ∧ (m' : ℚ) * 2 ^ e' ≤ m * 2 ^ e * (1 + 1 / 2 ^ 52) := by
  obtain ⟨x, hx, hcut⟩ := shiftToTargetExponent_exact hm (e := e) (by omega)
  obtain ⟨hlow, hhigh⟩ := roundedMantissa_bounds x
  rw [hcut] at hlow hhigh
  have hlog : 52 ≤ x.roundedMantissa.log2 := le_log2_of_le (log2_cut hm).ge hlow
  -- the mantissa is cut a second time, in case that rounding has made it longer
  obtain ⟨y, hy, hagain⟩ := shiftToTargetExponent_exact hlog (e := e + (m.log2 - 52 : Nat)) (by omega)
  have hlog' := log2_cut hlog
  rw [← hagain] at hlog'
  have h0 := ne_zero_of_log2 hlog'.ge
  refine ⟨y.mantissa, e + (m.log2 - 52 : Nat) + (x.roundedMantissa.log2 - 52 : Nat), Nat.pos_of_ne_zero h0, ?_,
    hlog', by omega, ?_, ?_⟩
  · rw [roundWithAccuracy, hx]
    dsimp only
    rw [hy]
    exact dif_neg h0
  · have hdown : ((m / 2 ^ (m.log2 - 52) : Nat) : ℚ) ≤ x.roundedMantissa := by exact_mod_cast hlow
    rw [hagain]
    calc (m : ℚ) * 2 ^ e * (1 - 1 / 2 ^ 52) ^ 2 = m * 2 ^ e * (1 - 1 / 2 ^ 52) * (1 - 1 / 2 ^ 52) := by ring
      _ ≤ ((m / 2 ^ (m.log2 - 52) : Nat) : ℚ) * 2 ^ (e + (m.log2 - 52 : Nat)) * (1 - 1 / 2 ^ 52) :=
          mul_le_mul_of_nonneg_right (le_cut hm e) (by norm_num)
      _ ≤ (x.roundedMantissa : ℚ) * 2 ^ (e + (m.log2 - 52 : Nat)) * (1 - 1 / 2 ^ 52) := by gcongr
      _ ≤ _ := le_cut hlog _
  · have hup : (x.roundedMantissa : ℚ) ≤ (m / 2 ^ (m.log2 - 52) : Nat) + 1 := by exact_mod_cast hhigh
    have hstep : (2 : ℚ) ^ (e + (m.log2 - 52 : Nat)) ≤ m / 2 ^ 52 * 2 ^ e := by
      rw [zpow_add₀ (by norm_num), zpow_natCast, mul_comm]
      gcongr
      exact two_pow_cut_le hm
    rw [hagain]
    calc _ ≤ (x.roundedMantissa : ℚ) * 2 ^ (e + (m.log2 - 52 : Nat)) := cut_le _ _ _
      _ ≤ ((m / 2 ^ (m.log2 - 52) : Nat) + 1) * 2 ^ (e + (m.log2 - 52 : Nat)) := by gcongr
      _ = (m / 2 ^ (m.log2 - 52) : Nat) * 2 ^ (e + (m.log2 - 52 : Nat)) + 2 ^ (e + (m.log2 - 52 : Nat)) := by ring
      _ ≤ m * 2 ^ e + m / 2 ^ 52 * 2 ^ e := add_le_add (cut_le _ _ _) hstep
      _ = m * 2 ^ e * (1 + 1 / 2 ^ 52) := by ring

/-! ## Doubles near a number -/

/-- A double of at least one in absolute value, as far from `q` as one rounding can bring it. -/
def Near (x : Float.Model) (q : ℚ) : Prop :=
  ∃ s m e h, x.unpack = .finite s m e h ∧ m.log2 = 52 ∧ -52 ≤ e ∧
    q * (1 - 1 / 2 ^ 52) ^ 2 ≤ (m : ℚ) * 2 ^ e ∧ (m : ℚ) * 2 ^ e ≤ q * (1 + 1 / 2 ^ 52)

theorem Near.isInf {x : Float.Model} {q : ℚ} (h : Near x q) : x.isInf = false := by
  obtain ⟨s, m, e, hpos, hx, -⟩ := h
  rw [Float.Model.isInf, hx]
  rfl

theorem Near.ne_zero {x : Float} {q : ℚ} (h : Near x.toModel q) : (x == 0) = false := by
  obtain ⟨s, m, e, hpos, hx, -⟩ := h
  have hzero : (0 : Float).toModel.unpack = .zero .positive := rfl
  show x.toModel.unpack.beq (0 : Float).toModel.unpack = false
  rw [hx, hzero]
  cases s <;> rfl

theorem lt_range {q : ℚ} (h : q < 2 ^ 65) : q < 2 ^ 1024 :=
  h.trans_le (pow_le_pow_right₀ (by norm_num) (by norm_num))

theorem eq_of_toBits {x y : Float.Model} (h : x.toBits = y.toBits) : x = y := by
  cases x
  cases y
  cases h
  rfl

theorem toNat_leading (v : BitVec 52) : (1#1 ++ v).toNat = 2 ^ 52 + v.toNat := by
  rw [BitVec.toNat_append, ← Nat.shiftLeft_add_eq_or_of_lt v.isLt]
  rfl

theorem finite_eq {s : Sign} {m m' : Nat} {e e' : Int} {h : 0 < m} {h' : 0 < m'} (hm : m = m') (he : e = e') :
    finite s m e h = finite s m' e' h' := by
  subst hm he
  rfl

theorem unpack_normal {b : BitVec 64} (h0 : @unpackExponent .binary64 b ≠ 0#11)
    (h1 : @unpackExponent .binary64 b ≠ -1#11) :
    ∃ s h, UnpackedFloat.unpack .binary64 b = .finite s (2 ^ 52 + (@unpackMantissa .binary64 b).toNat)
      ((@unpackExponent .binary64 b).toNat - 1075) h := by
  refine ⟨Sign.ofBitVec (@unpackSign .binary64 b), by omega, ?_⟩
  exact (if_neg h1).trans ((if_neg h0).trans (finite_eq (toNat_leading _) rfl))

theorem unpack_pack {s : Sign} {m : Nat} {e : Int} {h : 0 < m} (hm : m.log2 = 52) (hlow : -52 ≤ e)
    (hhigh : e ≤ 971) : ∃ s', (Float.Model.pack (.finite s m e h)).unpack = .finite s' m e h := by
  have hlead : 2 ^ 52 ≤ m ∧ m < 2 ^ 53 := (Nat.log2_eq_iff (by omega)).mp hm
  have hbits : UnpackedFloat.pack .binary64 (.finite s m e h) =
      packComponents .binary64 s (BitVec.ofNat 11 (e + 1023 + 52).toNat) (BitVec.ofNat 52 m) := by
    show (if 2 ^ 11 ≤ (e + 1023 + 52).toNat + 1 then _ else if m.log2 + 1 = 53 then _ else _) = _
    rw [if_neg (by omega), if_pos (by omega)]
    rfl
  have hexp : @unpackExponent .binary64 (UnpackedFloat.pack .binary64 (.finite s m e h)) =
      BitVec.ofNat 11 (e + 1023 + 52).toNat := by rw [hbits, unpackExponent_packComponents]
  have hman : @unpackMantissa .binary64 (UnpackedFloat.pack .binary64 (.finite s m e h)) = BitVec.ofNat 52 m := by
    rw [hbits, unpackMantissa_packComponents]
  have hnat : (BitVec.ofNat 11 (e + 1023 + 52).toNat).toNat = (e + 1075).toNat := by
    rw [BitVec.toNat_ofNat]
    omega
  obtain ⟨s', h', hs⟩ := @unpack_normal (UnpackedFloat.pack .binary64 (.finite s m e h))
    (by rw [hexp]; intro h0; rw [h0, BitVec.toNat_ofNat] at hnat; omega)
    (by rw [hexp]; intro h1; rw [h1] at hnat; simp at hnat; omega)
  refine ⟨s', hs.trans (finite_eq ?_ ?_)⟩
  · have hm' : (BitVec.ofNat 52 m).toNat = m % 2 ^ 52 := BitVec.toNat_ofNat _ _
    rw [hman, hm']
    omega
  · rw [hexp]
    omega

theorem exponent_le_of_isInf {s : Sign} {m : Nat} {e : Int} {h : 0 < m}
    (hinf : (Float.Model.pack (.finite s m e h)).isInf = false) : e ≤ 971 := by
  by_contra he
  have hpack : Float.Model.pack (.finite s m e h) = Float.Model.pack (.infinity s) := by
    apply eq_of_toBits
    apply UInt64.toBitVec_inj.mp
    show (if 2 ^ 11 ≤ (e + 1023 + 52).toNat + 1 then _ else _) = _
    exact if_pos (by omega)
  rw [hpack] at hinf
  cases s <;> cases hinf

section

variable (s : Sign) {m : Nat} {e : Int}

theorem near_round (hm : 52 ≤ m.log2) (he : 0 ≤ m.log2 + e) (hlt : m * 2 ^ e * (1 + 1 / 2 ^ 52) < (2 : ℚ) ^ 1024) :
    Near (Float.Model.pack (roundWithAccuracy .binary64 s m e .exact)) (m * 2 ^ e) := by
  obtain ⟨m', e', h, hround, hlog, hlow, hge, hle⟩ := roundWithAccuracy_bounds s hm he
  have hlead : (2 : ℚ) ^ 52 ≤ m' := by exact_mod_cast ((Nat.log2_eq_iff (by omega)).mp hlog).1
  have hhigh : (2 : ℚ) ^ (52 + e') < 2 ^ (1024 : Int) :=
    calc (2 : ℚ) ^ (52 + e') = 2 ^ 52 * 2 ^ e' := by rw [zpow_add₀ (by norm_num)]; rfl
      _ ≤ m' * 2 ^ e' := by gcongr
      _ ≤ m * 2 ^ e * (1 + 1 / 2 ^ 52) := hle
      _ < 2 ^ (1024 : Int) := hlt
  have he' : 52 + e' < 1024 := (zpow_lt_zpow_iff_right₀ (by norm_num)).mp hhigh
  obtain ⟨s', hunpack⟩ := unpack_pack (s := s) (h := h) hlog hlow (by omega)
  exact ⟨s', m', e', h, by rw [hround, hunpack], hlog, hlow, hge, hle⟩

/-- What is not rounded to an infinity is less than `2 ^ 1024`, but for what rounding has taken off. -/
theorem lt_of_round_isInf (hm : 52 ≤ m.log2) (he : 0 ≤ m.log2 + e)
    (hinf : (Float.Model.pack (roundWithAccuracy .binary64 s m e .exact)).isInf = false) :
    m * 2 ^ e * (1 - 1 / 2 ^ 52) ^ 2 < (2 : ℚ) ^ 1024 := by
  obtain ⟨m', e', h, hround, hlog, -, hge, -⟩ := roundWithAccuracy_bounds s hm he
  rw [hround] at hinf
  have he' := exponent_le_of_isInf hinf
  have hlead : (m' : ℚ) < 2 ^ 53 := by exact_mod_cast ((Nat.log2_eq_iff (by omega)).mp hlog).2
  calc m * 2 ^ e * (1 - 1 / 2 ^ 52) ^ 2 ≤ (m' : ℚ) * 2 ^ e' := hge
    _ < 2 ^ 53 * 2 ^ e' := by gcongr
    _ ≤ 2 ^ 53 * 2 ^ (971 : Int) := by gcongr; norm_num
    _ = 2 ^ 1024 := by rw [show (971 : Int) = (971 : Nat) from rfl, zpow_natCast, ← pow_add]

end

namespace Near

variable {x y : Float.Model} {p q : ℚ}

theorem exists_mul (hx : Near x p) (hy : Near y q) : ∃ s m e,
    x * y = Float.Model.pack (roundWithAccuracy .binary64 s m e .exact) ∧ 52 ≤ m.log2 ∧ 0 ≤ m.log2 + e ∧
      p * q * (1 - 1 / 2 ^ 52) ^ 4 ≤ (m : ℚ) * 2 ^ e ∧ (m : ℚ) * 2 ^ e ≤ p * q * (1 + 1 / 2 ^ 52) ^ 2 := by
  obtain ⟨s₁, m₁, e₁, h₁, hx, hlog₁, hlow₁, hge₁, hle₁⟩ := hx
  obtain ⟨s₂, m₂, e₂, h₂, hy, hlog₂, hlow₂, hge₂, hle₂⟩ := hy
  have hlog : 52 + 52 ≤ (m₁ * m₂).log2 := by
    rw [Nat.le_log2 (Nat.mul_ne_zero (by omega) (by omega)), Nat.pow_add]
    exact Nat.mul_le_mul ((Nat.le_log2 (by omega)).mp hlog₁.ge) ((Nat.le_log2 (by omega)).mp hlog₂.ge)
  have hprod : ((m₁ * m₂ : Nat) : ℚ) * 2 ^ (e₁ + e₂) = m₁ * 2 ^ e₁ * (m₂ * 2 ^ e₂) := by
    rw [zpow_add₀ (by norm_num), Nat.cast_mul]
    ring
  have hp : 0 ≤ p * (1 + 1 / 2 ^ 52) := le_trans (by positivity) hle₁
  have hq : 0 ≤ q := by
    have hq' : 0 ≤ q * (1 + 1 / 2 ^ 52) := le_trans (by positivity) hle₂
    exact nonneg_of_mul_nonneg_left hq' (by norm_num)
  refine ⟨s₁ * s₂, m₁ * m₂, e₁ + e₂, ?_, by omega, by omega, ?_, ?_⟩
  · show Float.Model.pack (UnpackedFloat.mul .binary64 x.unpack y.unpack) = _
    rw [hx, hy]
    rfl
  · rw [hprod]
    calc p * q * (1 - 1 / 2 ^ 52) ^ 4 = p * (1 - 1 / 2 ^ 52) ^ 2 * (q * (1 - 1 / 2 ^ 52) ^ 2) := by ring
      _ ≤ (m₁ : ℚ) * 2 ^ e₁ * (m₂ * 2 ^ e₂) := mul_le_mul hge₁ hge₂ (by positivity) (by positivity)
  · rw [hprod]
    calc m₁ * 2 ^ e₁ * (m₂ * 2 ^ e₂) ≤ p * (1 + 1 / 2 ^ 52) * (q * (1 + 1 / 2 ^ 52)) := by gcongr
      _ = p * q * (1 + 1 / 2 ^ 52) ^ 2 := by ring

theorem isInf_mul (hx : Near x p) (hy : Near y q) (hlt : p * q * (1 + 1 / 2 ^ 52) ^ 3 < 2 ^ 1024) :
    (x * y).isInf = false := by
  obtain ⟨s, m, e, hmul, hm, he, -, hle⟩ := hx.exists_mul hy
  rw [hmul]
  refine (near_round s hm he (lt_of_le_of_lt ?_ hlt)).isInf
  calc m * 2 ^ e * (1 + 1 / 2 ^ 52) ≤ p * q * (1 + 1 / 2 ^ 52) ^ 2 * (1 + 1 / 2 ^ 52) := by gcongr
    _ = p * q * (1 + 1 / 2 ^ 52) ^ 3 := by ring

theorem lt_of_mul_isInf (hx : Near x p) (hy : Near y q) (hinf : (x * y).isInf = false) :
    p * q * (1 - 1 / 2 ^ 52) ^ 6 < 2 ^ 1024 := by
  obtain ⟨s, m, e, hmul, hm, he, hge, -⟩ := hx.exists_mul hy
  rw [hmul] at hinf
  calc p * q * (1 - 1 / 2 ^ 52) ^ 6 = p * q * (1 - 1 / 2 ^ 52) ^ 4 * (1 - 1 / 2 ^ 52) ^ 2 := by ring
    _ ≤ (m : ℚ) * 2 ^ e * (1 - 1 / 2 ^ 52) ^ 2 := by gcongr
    _ < 2 ^ 1024 := lt_of_round_isInf s hm he hinf

end Near

namespace Scientific

theorem toFloat_eq {n : Nat} (h0 : n ≠ 0) (hlt : n < limit) : n.toUInt64.toFloat.toModel = Float.Model.pack
    (roundWithAccuracy .binary64 .positive (n <<< (52 - n.log2)) (-(52 - n.log2 : Nat)) .exact) := by
  have hn : n.toUInt64.toNat = n := Nat.mod_eq_of_lt hlt
  have hcompare : compare (n : Int) 0 = .gt := by rw [Int.compare_eq_gt]; omega
  have hk : (-Format.binary64.targetExponent (totalExponent n 0)).toNat = 52 - n.log2 := by
    show (-max ((n.log2 : Int) + 1 + 0 - 53) (-1074)).toNat = 52 - n.log2
    omega
  show Float.Model.pack (UnpackedFloat.normalize .binary64 (n.toUInt64.toNat : Int) 0 .positive) = _
  rw [hn, UnpackedFloat.normalize, hcompare]
  simp only [UnpackedFloat.round, decreaseExponent, Int.toNat_natCast, Int.zero_sub, hk]

theorem le_log2_shiftLeft {n : Nat} (h0 : n ≠ 0) : 52 ≤ (n <<< (52 - n.log2)).log2 := by
  have hlead := Nat.log2_self_le h0
  have hpow : 2 ^ 52 ≤ 2 ^ n.log2 * 2 ^ (52 - n.log2) := by
    rw [← Nat.pow_add]
    exact Nat.pow_le_pow_right (by decide) (by omega)
  have hle : 2 ^ 52 ≤ n * 2 ^ (52 - n.log2) := Nat.le_trans hpow (Nat.mul_le_mul_right _ hlead)
  rw [Nat.shiftLeft_eq, Nat.le_log2 (by omega)]
  exact hle

theorem near_toFloat {n : Nat} (h0 : n ≠ 0) (hlt : n < limit) : Near n.toUInt64.toFloat.toModel n := by
  have hlog := le_log2_shiftLeft h0
  have hvalue : ((n <<< (52 - n.log2) : Nat) : ℚ) * 2 ^ (-(52 - n.log2 : Nat) : Int) = n := by
    rw [Nat.shiftLeft_eq, Nat.cast_mul, zpow_neg, zpow_natCast, Nat.cast_pow, Nat.cast_ofNat, mul_assoc,
      mul_inv_cancel₀ (by positivity), mul_one]
  have hword : (n : ℚ) ≤ 0x10000000000000000 := by exact_mod_cast hlt.le
  have hround := near_round .positive hlog (e := -(52 - n.log2 : Nat)) (by omega)
  rw [hvalue] at hround
  rw [toFloat_eq h0 hlt]
  refine hround (lt_range ?_)
  calc (n : ℚ) * (1 + 1 / 2 ^ 52) ≤ 0x10000000000000000 * (1 + 1 / 2 ^ 52) := by gcongr
    _ < 2 ^ 65 := by norm_num

theorem powerOfTen_eq {k : Nat} (hk : k ≤ 308) : (powerOfTen k).toModel =
    Float.Model.pack (roundWithAccuracy .binary64 .positive (2 ^ 53 * 10 ^ k) (-53) .exact) := by
  by_cases hsmall : k < 23
  · -- these are looked up in a table
    have htable : ∀ k < 23, (powerOfTen k).toModel.toBits =
        (Float.Model.pack (roundWithAccuracy .binary64 .positive (2 ^ 53 * 10 ^ k) (-53) .exact)).toBits := by
      decide
    exact eq_of_toBits (htable k hsmall)
  · have hscientific : UnpackedFloat.ofScientific .binary64 1 k =
        roundWithAccuracy .binary64 .positive (2 ^ 53 * 10 ^ k) (-53) .exact := by
      rw [UnpackedFloat.ofScientific, dif_neg (by decide), if_neg (by simp; omega),
        if_neg (by simp; omega), if_pos (by omega)]
      rfl
    rw [powerOfTen, Float.ofScientific, dif_neg (by omega), ← hscientific]
    rfl

theorem near_powerOfTen {k : Nat} (hk : k ≤ 308) : Near (powerOfTen k).toModel (10 ^ k) := by
  have h0 : 2 ^ 53 * 10 ^ k ≠ 0 := by positivity
  have hlog : 53 ≤ (2 ^ 53 * 10 ^ k).log2 := (Nat.le_log2 h0).mpr (Nat.le_mul_of_pos_right _ (by positivity))
  have hvalue : ((2 ^ 53 * 10 ^ k : Nat) : ℚ) * 2 ^ (-53 : Int) = 10 ^ k := by
    rw [Nat.cast_mul, mul_right_comm, show ((2 ^ 53 : Nat) : ℚ) * 2 ^ (-53 : Int) = 1 by norm_num]
    simp
  have hrange : (10 : ℚ) ^ 308 * (1 + 1 / 2 ^ 52) < 2 ^ 1024 := by
    rw [show 308 = 154 * 2 from rfl, show 1024 = 256 * 4 from rfl, pow_mul, pow_mul]
    norm_num
  have hround := near_round .positive (m := 2 ^ 53 * 10 ^ k) (e := -53) (by omega) (by omega)
  rw [hvalue] at hround
  rw [powerOfTen_eq hk]
  refine hround ?_
  calc (10 : ℚ) ^ k * (1 + 1 / 2 ^ 52) ≤ 10 ^ 308 * (1 + 1 / 2 ^ 52) := by gcongr; norm_num
    _ < 2 ^ 1024 := hrange

/-! ## Raising to a power of ten -/

/-- Half a step above the seventh largest double. The three steps of reading raise no number up to here beyond
the range of doubles. -/
def ceiling : Nat := (2 ^ 54 - 13) * 2 ^ 970

theorem exponent_le_of_ceiling {n k : Nat} (h0 : n ≠ 0) (hle : n * 10 ^ k ≤ ceiling) : k ≤ 308 := by
  have hpow : 10 ^ k ≤ ceiling := Nat.le_trans (Nat.le_mul_of_pos_left _ (Nat.pos_of_ne_zero h0)) hle
  have htop : ceiling < 10 ^ 309 := by
    rw [ceiling, show 970 = 194 * 5 from rfl, show 309 = 103 * 3 from rfl, Nat.pow_mul, Nat.pow_mul]
    norm_num
  have := (Nat.pow_lt_pow_iff_right (by decide)).mp (Nat.lt_of_le_of_lt hpow htop)
  omega

theorem exists_raise {n k : Nat} (h0 : n ≠ 0) (hlt : n < limit) (hle : n * 10 ^ k ≤ ceiling) :
    ∃ y, raise? n.toUInt64.toFloat k = some y := by
  have hk := exponent_le_of_ceiling h0 hle
  have htop : (n : ℚ) * 10 ^ k * (1 + 1 / 2 ^ 52) ^ 3 < 2 ^ 1024 := by
    have hle' : (n : ℚ) * 10 ^ k ≤ ceiling := by exact_mod_cast hle
    calc (n : ℚ) * 10 ^ k * (1 + 1 / 2 ^ 52) ^ 3 ≤ (ceiling : ℚ) * (1 + 1 / 2 ^ 52) ^ 3 := by gcongr
      _ = ((2 ^ 54 - 13 : Nat) : ℚ) * (1 + 1 / 2 ^ 52) ^ 3 * 2 ^ 970 := by
          rw [ceiling, Nat.cast_mul, Nat.cast_pow 2 970, Nat.cast_ofNat, mul_right_comm]
      _ < 2 ^ 54 * 2 ^ 970 := by gcongr; norm_num
      _ = 2 ^ 1024 := by rw [← pow_add]
  have hinf : (n.toUInt64.toFloat * powerOfTen k).isInf = false :=
    (near_toFloat h0 hlt).isInf_mul (near_powerOfTen hk) htop
  exact ⟨n.toUInt64.toFloat * powerOfTen k, by simp [raise?, hk, hinf]⟩

theorem lt_of_raise {n k : Nat} {y : Float} (h0 : n ≠ 0) (hlt : n < limit)
    (h : raise? n.toUInt64.toFloat k = some y) : (n : ℚ) * 10 ^ k * (1 - 1 / 2 ^ 52) ^ 6 < 2 ^ 1024 := by
  have hn := near_toFloat h0 hlt
  by_cases hk : k ≤ 308
  · simp only [raise?, if_pos hk] at h
    split at h
    · cases h
    · rename_i hinf
      exact hn.lt_of_mul_isInf (near_powerOfTen hk) (Bool.eq_false_of_not_eq_true hinf)
  · simp [raise?, if_neg hk, hn.ne_zero] at h

theorem exists_raise_zero (k : Nat) : ∃ y, raise? (0 : Nat).toUInt64.toFloat k = some y := by
  by_cases hk : k ≤ 308
  · obtain ⟨s, m, e, h, hpower, -⟩ := near_powerOfTen hk
    have hzero : (0 : Nat).toUInt64.toFloat.toModel.unpack = .zero .positive := rfl
    have hinf : ((0 : Nat).toUInt64.toFloat * powerOfTen k).isInf = false := by
      show (Float.Model.pack (UnpackedFloat.mul .binary64 _ (powerOfTen k).toModel.unpack)).isInf = false
      rw [hzero, hpower]
      show (Float.Model.pack (.zero (.positive * s))).isInf = false
      cases s <;> decide
    exact ⟨_, by simp only [raise?, if_pos hk, hinf]; rfl⟩
  · exact ⟨_, by simp only [raise?, if_neg hk]; rfl⟩

section

variable {x : Scientific}

/-- Only a number with a positive exponent can be too large for a double. -/
theorem exists_toFloat (hlt : x.significand < limit) (hle : (x.significand : ℚ) * 10 ^ x.exponent ≤ ceiling) :
    ∃ y, x.toFloat? = some y := by
  by_cases hexp : 0 ≤ x.exponent
  · obtain ⟨k, hk⟩ := Int.eq_ofNat_of_zero_le hexp
    rw [hk, zpow_natCast] at hle
    rw [toFloat?, if_pos hexp, hk, Int.toNat_natCast]
    by_cases h0 : x.significand = 0
    · rw [h0]
      exact exists_raise_zero k
    · exact exists_raise h0 hlt (by exact_mod_cast hle)
  · exact ⟨_, if_neg hexp⟩

theorem lt_of_toFloat {y : Float} (hlt : x.significand < limit) (h : x.toFloat? = some y) :
    (x.significand : ℚ) * 10 ^ x.exponent * (1 - 1 / 2 ^ 52) ^ 6 < 2 ^ 1024 := by
  by_cases h0 : x.significand = 0
  · rw [h0, Nat.cast_zero, zero_mul, zero_mul]
    positivity
  by_cases hexp : 0 ≤ x.exponent
  · obtain ⟨k, hk⟩ := Int.eq_ofNat_of_zero_le hexp
    rw [toFloat?, if_pos hexp, hk, Int.toNat_natCast] at h
    rw [hk, zpow_natCast]
    exact lt_of_raise h0 hlt h
  · have hword : (x.significand : ℚ) ≤ 2 ^ 64 := by exact_mod_cast hlt.le
    have hpow : (10 : ℚ) ^ x.exponent ≤ 1 := zpow_le_one_of_nonpos₀ (by norm_num) (by omega)
    refine lt_range ?_
    calc (x.significand : ℚ) * 10 ^ x.exponent * (1 - 1 / 2 ^ 52) ^ 6 ≤ 2 ^ 64 * 1 * 1 := by
          gcongr
          norm_num
      _ < 2 ^ 65 := by norm_num

end

end Scientific

end SharpTree
