import Mathlib.Tactic.FieldSimp
import SharpTree.Decimal.Shortest
import SharpTree.Proofs.Decimal.Rounding

/-!
# What a shortest decimal form stands for

The point that is taken from a grid lies in the interval of the double. Of that
only the upper end matters here (`onGrid?_le`), and that the point of a double
other than zero is not zero.
-/

namespace SharpTree

namespace Shortest

/-! ## Points of a grid -/

/-- Quarters of a step of a double, as a fraction. -/
def quarter (x : Binary) : Nat × Nat :=
  if 2 ≤ x.exponent then (2 ^ (x.exponent - 2).toNat, 1) else (1, 2 ^ (2 - x.exponent).toNat)

def inside (x : Binary) (unit den n : Nat) : Bool :=
  let low := (4 * x.mantissa - if x.tight then 1 else 2) * unit
  let high := (4 * x.mantissa + 2) * unit
  if x.mantissa % 2 = 0 then low ≤ n * den && n * den ≤ high else low < n * den && n * den < high

def neighbour (inside : Nat → Bool) (lower : Bool) (n : Nat) : Option Nat :=
  match inside n, inside (n + 1) with
  | true, true => some (if lower then n else n + 1)
  | true, false => some n
  | false, true => some (n + 1)
  | false, false => none

theorem inside_of_neighbour {inside : Nat → Bool} {lower : Bool} {n k : Nat}
    (h : neighbour inside lower n = some k) : inside k = true := by
  unfold neighbour at h
  split at h
  · cases lower <;> cases h <;> assumption
  · cases h; assumption
  · cases h; assumption
  · cases h

theorem onGrid?_eq (x : Binary) (e : Int) : ∃ lower n, onGrid? x e = neighbour
    (inside x (inUnits (quarter x).1 (quarter x).2 e).1 (inUnits (quarter x).1 (quarter x).2 e).2) lower n :=
  ⟨_, _, rfl⟩

theorem bounds_of_inside {x : Binary} {unit den n : Nat} (h : inside x unit den n = true) :
    (4 * x.mantissa - 2) * unit ≤ n * den ∧ n * den ≤ (4 * x.mantissa + 2) * unit := by
  have hlow : (4 * x.mantissa - 2) * unit ≤ (4 * x.mantissa - if x.tight then 1 else 2) * unit :=
    Nat.mul_le_mul_right _ (by split <;> omega)
  by_cases heven : x.mantissa % 2 = 0
  · simp only [inside, heven, if_true, Bool.and_eq_true, decide_eq_true_eq] at h
    exact ⟨hlow.trans h.1, h.2⟩
  · simp only [inside, heven, if_false, Bool.and_eq_true, decide_eq_true_eq] at h
    exact ⟨hlow.trans h.1.le, h.2.le⟩

theorem quarter_eq (x : Binary) : (quarter x).1 ≠ 0 ∧ (quarter x).2 ≠ 0 ∧
    ((quarter x).1 : ℚ) / (quarter x).2 = 2 ^ (x.exponent - 2) := by
  unfold quarter
  split
  · rename_i he
    obtain ⟨k, hk⟩ := Int.eq_ofNat_of_zero_le (Int.sub_nonneg.mpr he)
    refine ⟨by positivity, one_ne_zero, ?_⟩
    rw [hk]
    simp
  · obtain ⟨k, hk⟩ := Int.eq_ofNat_of_zero_le (a := 2 - x.exponent) (by omega)
    refine ⟨one_ne_zero, by positivity, ?_⟩
    rw [hk, show x.exponent - 2 = -(k : Int) by omega]
    simp

theorem inUnits_eq {num den : Nat} (hnum : num ≠ 0) (hden : den ≠ 0) (e : Int) :
    (inUnits num den e).1 ≠ 0 ∧ (inUnits num den e).2 ≠ 0 ∧
      ((inUnits num den e).1 : ℚ) / (inUnits num den e).2 * 10 ^ e = num / den := by
  have hd : (den : ℚ) ≠ 0 := by exact_mod_cast hden
  have hten : ∀ k, Nat.pow 10 k ≠ 0 := fun k => Nat.ne_of_gt (Nat.pow_pos (by decide))
  unfold inUnits
  split
  · rename_i he
    obtain ⟨k, rfl⟩ := Int.eq_ofNat_of_zero_le he
    refine ⟨hnum, Nat.mul_ne_zero hden (hten _), ?_⟩
    simp only [Int.toNat_natCast, zpow_natCast, Nat.pow_eq, Nat.cast_mul, Nat.cast_pow, Nat.cast_ofNat]
    field_simp
  · obtain ⟨k, hk⟩ := Int.eq_ofNat_of_zero_le (a := -e) (by omega)
    obtain rfl : e = -(k : Int) := by omega
    refine ⟨Nat.mul_ne_zero hnum (hten _), hden, ?_⟩
    simp only [Int.neg_neg, Int.toNat_natCast, zpow_neg, zpow_natCast, Nat.pow_eq, Nat.cast_mul, Nat.cast_pow,
      Nat.cast_ofNat]
    field_simp

/-- The point of a grid that is taken for a double is at most half a step above it. -/
theorem onGrid?_le {x : Binary} {e : Int} {n : Nat} (h : onGrid? x e = some n) :
    (n : ℚ) * 10 ^ e ≤ (4 * x.mantissa + 2) * 2 ^ (x.exponent - 2) := by
  obtain ⟨lower, k, heq⟩ := onGrid?_eq x e
  obtain ⟨hnum, hden, hquarter⟩ := quarter_eq x
  obtain ⟨-, hden', hunits⟩ := inUnits_eq hnum hden e
  rw [heq] at h
  have hle := (bounds_of_inside (inside_of_neighbour h)).2
  generalize (inUnits (quarter x).1 (quarter x).2 e).1 = unit at *
  generalize (inUnits (quarter x).1 (quarter x).2 e).2 = den at *
  have hpos : (0 : ℚ) < den := by exact_mod_cast Nat.pos_of_ne_zero hden'
  have hcast : (n : ℚ) * den ≤ (4 * x.mantissa + 2) * unit := by exact_mod_cast hle
  have hdiv : (n : ℚ) ≤ (4 * x.mantissa + 2) * (unit / den) := by
    rw [← mul_div_assoc, le_div_iff₀ hpos]
    exact hcast
  calc (n : ℚ) * 10 ^ e ≤ (4 * x.mantissa + 2) * (unit / den) * 10 ^ e := by gcongr
    _ = (4 * x.mantissa + 2) * 2 ^ (x.exponent - 2) := by rw [mul_assoc, hunits, hquarter]

theorem onGrid?_ne_zero {x : Binary} {e : Int} {n : Nat} (hx : x.mantissa ≠ 0) (h : onGrid? x e = some n) :
    n ≠ 0 := by
  obtain ⟨lower, k, heq⟩ := onGrid?_eq x e
  obtain ⟨hnum, hden, -⟩ := quarter_eq x
  obtain ⟨hunit, -, -⟩ := inUnits_eq hnum hden e
  rw [heq] at h
  have hle := (bounds_of_inside (inside_of_neighbour h)).1
  have hlow : 0 < (4 * x.mantissa - 2) * (inUnits (quarter x).1 (quarter x).2 e).1 :=
    Nat.mul_pos (by omega) (Nat.pos_of_ne_zero hunit)
  rintro rfl
  omega

theorem ofBinary_cases (x : Binary) :
    ofBinary x = ⟨0, 0⟩ ∨ onGrid? x (ofBinary x).exponent = some (ofBinary x).digits := by
  unfold ofBinary
  split
  · rename_i d hd
    obtain ⟨e, -, he⟩ := List.exists_of_findSome?_eq_some hd
    obtain ⟨n, hn, rfl⟩ := Option.map_eq_some_iff.mp he
    exact .inr hn
  · exact .inl rfl

end Shortest

/-! ## The bits of a double -/

namespace Binary

open Float.Model Float.Model.UnpackedFloat

theorem ofFloat_cases (x : Float) :
    (x.toBits.toNat / 2 ^ 52 % 0x800 = 0 ∧ ofFloat x = ⟨x.toBits.toNat % 2 ^ 52, -1074, false⟩) ∨
      (x.toBits.toNat / 2 ^ 52 % 0x800 ≠ 0 ∧ ofFloat x = ⟨2 ^ 52 + x.toBits.toNat % 2 ^ 52,
        (x.toBits.toNat / 2 ^ 52 % 0x800 : Nat) - 1075,
        x.toBits.toNat % 2 ^ 52 = 0 && x.toBits.toNat / 2 ^ 52 % 0x800 != 1⟩) := by
  by_cases h : x.toBits.toNat / 2 ^ 52 % 0x800 = 0
  · exact .inl ⟨h, if_pos h⟩
  · exact .inr ⟨h, if_neg h⟩

theorem toNat_unpackExponent (x : Float) :
    (@unpackExponent .binary64 x.toBits.toBitVec).toNat = x.toBits.toNat / 2 ^ 52 % 0x800 := by
  simp only [unpackExponent, BitVec.toNat_cast, BitVec.extractLsb_toNat, Nat.shiftRight_eq_div_pow]
  rfl

theorem toNat_unpackMantissa (x : Float) :
    (@unpackMantissa .binary64 x.toBits.toBitVec).toNat = x.toBits.toNat % 2 ^ 52 := by
  simp only [unpackMantissa, BitVec.toNat_cast, BitVec.extractLsb_toNat, Nat.shiftRight_zero]
  rfl

theorem biased_ne_of_isFinite {x : Float} (hx : x.isFinite = true) : x.toBits.toNat / 2 ^ 52 % 0x800 ≠ 0x7ff := by
  intro h
  have hexp : @unpackExponent .binary64 x.toBits.toBitVec = -1#11 :=
    BitVec.eq_of_toNat_eq ((toNat_unpackExponent x).trans h)
  have hunpack : x.toModel.unpack = if @unpackMantissa .binary64 x.toBits.toBitVec = 0#52 then
      .infinity (Sign.ofBitVec (@unpackSign .binary64 x.toBits.toBitVec)) else .notANumber := if_pos hexp
  have hfinite : x.toModel.unpack.isFinite = true := hx
  rw [hunpack] at hfinite
  split at hfinite <;> cases hfinite

theorem ofFloat_bounds {x : Float} (hx : x.isFinite = true) :
    (ofFloat x).mantissa < 2 ^ 53 ∧ (ofFloat x).exponent ≤ 971 ∧
      ((ofFloat x).tight = true → (ofFloat x).mantissa = 2 ^ 52) := by
  have hbiased := biased_ne_of_isFinite hx
  obtain ⟨-, heq⟩ | ⟨-, heq⟩ := ofFloat_cases x
  · rw [heq]
    exact ⟨by dsimp only; omega, by dsimp only; omega, fun h => by cases h⟩
  · rw [heq]
    refine ⟨by dsimp only; omega, by dsimp only; omega, fun h => ?_⟩
    simp only [Bool.and_eq_true, decide_eq_true_eq] at h
    dsimp only
    omega

theorem eq_zero_of_mantissa {x : Float} (h : (ofFloat x).mantissa = 0) : (x == 0) = true := by
  obtain ⟨hbiased, heq⟩ | ⟨-, heq⟩ := ofFloat_cases x
  · rw [heq] at h
    have hexp : @unpackExponent .binary64 x.toBits.toBitVec = 0#11 :=
      BitVec.eq_of_toNat_eq ((toNat_unpackExponent x).trans hbiased)
    have hman : @unpackMantissa .binary64 x.toBits.toBitVec = 0#52 :=
      BitVec.eq_of_toNat_eq ((toNat_unpackMantissa x).trans h)
    have hends : @unpackExponent .binary64 x.toBits.toBitVec ≠ -1#11 := by rw [hexp]; decide
    have hunpack : x.toModel.unpack = .zero (Sign.ofBitVec (@unpackSign .binary64 x.toBits.toBitVec)) :=
      (if_neg hends).trans ((if_pos hexp).trans (dif_pos hman))
    have hzero : (0 : Float).toModel.unpack = .zero .positive := rfl
    show x.toModel.unpack.beq (0 : Float).toModel.unpack = true
    rw [hunpack, hzero]
    rfl
  · rw [heq] at h
    dsimp only at h
    omega

/-- Half a step above a double is within the bound, but for the six largest doubles. -/
theorem half_step_le {x : Binary} (hm : x.mantissa < 2 ^ 53) (he : x.exponent ≤ 971)
    (h : x.exponent = 971 → x.mantissa + 6 < 2 ^ 53) :
    (4 * x.mantissa + 2) * 2 ^ (x.exponent - 2) ≤ (Scientific.ceiling : ℚ) := by
  have hceiling : (Scientific.ceiling : ℚ) = (2 ^ 54 - 13 : Nat) * 2 ^ (970 : Int) := by
    rw [Scientific.ceiling, Nat.cast_mul, Nat.cast_pow 2 970]
    rfl
  have hsplit : ∀ j : Int, (2 : ℚ) ^ (970 : Int) = 2 ^ j * 2 ^ (970 - j) := fun j => by
    rw [← zpow_add₀ (by norm_num), add_sub_cancel]
  rw [hceiling]
  by_cases htop : x.exponent = 971
  · have hle : 4 * x.mantissa + 2 ≤ (2 ^ 54 - 13) * 2 := by have := h htop; omega
    have hle' : (4 * x.mantissa + 2 : ℚ) ≤ (2 ^ 54 - 13 : Nat) * 2 := by exact_mod_cast hle
    rw [htop, hsplit 1, ← mul_assoc]
    exact mul_le_mul_of_nonneg_right hle' (by positivity)
  · have hle : 4 * x.mantissa + 2 ≤ (2 ^ 54 - 13) * 2 ^ 2 := by omega
    have hle' : (4 * x.mantissa + 2 : ℚ) ≤ (2 ^ 54 - 13 : Nat) * 2 ^ (2 : Int) := by exact_mod_cast hle
    have hpow : (2 : ℚ) ^ (x.exponent - 2) ≤ 2 ^ (970 - 2 : Int) := zpow_le_zpow_right₀ (by norm_num) (by omega)
    rw [hsplit 2, ← mul_assoc]
    exact mul_le_mul hle' hpow (by positivity) (by positivity)

end Binary

end SharpTree
