import SharpTree.Proofs.Decimal.Rounding

/-!
# Doubles that are read stay in range

A numeral is read as a product, which is looked at, or as a quotient, which is
not. But a quotient by a power of ten cannot become an infinity: its exponent is
at most the difference of the exponents, however its mantissa is rounded. So no
double that is read is an infinity or not a number (`inRange_toFloat?`).
-/

namespace SharpTree

open Float.Model Float.Model.UnpackedFloat

/-- A zero, or a number with a mantissa of at most 53 bits and an exponent of at most `b`. -/
def InRange (b : Int) : UnpackedFloat → Prop
  | .zero _ => True
  | .finite _ m e _ => m.log2 ≤ 52 ∧ e ≤ b
  | _ => False

namespace InRange

variable {u : UnpackedFloat} {b c : Int}

theorem isFinite (h : InRange b u) : u.isFinite = true := by
  cases u with
  | zero | finite => rfl
  | infinity | notANumber => exact h.elim

theorem mono (h : InRange b u) (hle : b ≤ c) : InRange c u := by
  cases u with
  | finite s m e hm => exact ⟨h.1, Int.le_trans h.2 hle⟩
  | _ => exact h

theorem neg (h : InRange b u) : InRange b u.neg := by
  cases u <;> exact h

end InRange

/-! ## Rounding -/

theorem log2_le_iff {n k : Nat} : n.log2 ≤ k ↔ n < 2 ^ (k + 1) := by
  by_cases h0 : n = 0
  · simp [h0]
  · exact Nat.lt_succ_iff.symm.trans (Nat.log2_lt h0)

theorem log2_div_le (n k : Nat) : (n / 2 ^ k).log2 ≤ n.log2 - k := by
  have hpow : 2 ^ (n.log2 + 1) ≤ 2 ^ (n.log2 - k + 1 + k) := Nat.pow_le_pow_right (by decide) (by omega)
  rw [log2_le_iff, Nat.div_lt_iff_lt_mul (Nat.two_pow_pos k), ← Nat.pow_add]
  exact Nat.lt_of_lt_of_le Nat.lt_log2_self hpow

theorem log2_shiftLeft_le (n k : Nat) : (n <<< k).log2 ≤ n.log2 + k := by
  rw [log2_le_iff, Nat.shiftLeft_eq, Nat.add_right_comm, Nat.pow_add]
  exact Nat.mul_lt_mul_of_pos_right Nat.lt_log2_self (Nat.two_pow_pos k)

theorem log2_roundedMantissa_le (x : ExtendedMantissa) : x.roundedMantissa.log2 ≤ x.mantissa.log2 + 1 := by
  have hle := (roundedMantissa_bounds x).2
  have hlt := @Nat.lt_log2_self x.mantissa
  rw [log2_le_iff, Nat.pow_succ]
  omega

/-- A mantissa that is rounded up to one bit more is cut again, so that bit is not lost to the exponent. -/
theorem inRange_round (s : Sign) {m : Nat} {e b : Int} (acc : Accuracy) (hm : m.log2 + e ≤ b) (he : e ≤ b)
    (hb : -1074 ≤ b) : InRange b (roundWithAccuracy .binary64 s m e acc) := by
  obtain ⟨x, k, hx, hcut, hk⟩ := shiftToTargetExponent_eq m e acc
  obtain ⟨y, j, hy, hagain, hj⟩ := shiftToTargetExponent_eq x.roundedMantissa (e + k) .exact
  have hlog := log2_div_le m k
  have hrounded := log2_roundedMantissa_le x
  rw [hcut] at hrounded
  have hlog' := log2_div_le x.roundedMantissa j
  rw [← hagain] at hlog'
  have hround : roundWithAccuracy .binary64 s m e acc =
      if h : y.mantissa = 0 then .zero s else .finite s y.mantissa (e + k + j) (Nat.pos_of_ne_zero h) := by
    rw [roundWithAccuracy, hx]
    dsimp only
    rw [hy]
  rw [hround]
  by_cases h0 : y.mantissa = 0
  · rw [dif_pos h0]
    trivial
  · rw [dif_neg h0]
    exact ⟨by omega, by omega⟩

/-! ## Packing -/

theorem inRange_unpack {v : BitVec 64} {b : Int} (h : (@unpackExponent .binary64 v).toNat ≤ b + 1075) (hb : b ≤ 971)
    (hlow : -1074 ≤ b) : InRange b (UnpackedFloat.unpack .binary64 v) := by
  have hmantissa : (@unpackMantissa .binary64 v).toNat < 2 ^ 52 := (@unpackMantissa .binary64 v).isLt
  have h1 : @unpackExponent .binary64 v ≠ -1#11 := by
    intro h1
    rw [h1] at h
    simp at h
    omega
  by_cases h0 : @unpackExponent .binary64 v = 0#11
  · by_cases hm : @unpackMantissa .binary64 v = 0#52
    · have hunpack : UnpackedFloat.unpack .binary64 v = .zero (Sign.ofBitVec (@unpackSign .binary64 v)) :=
        (if_neg h1).trans ((if_pos h0).trans (dif_pos hm))
      rw [hunpack]
      trivial
    · have hpos : 0 < (@unpackMantissa .binary64 v).toNat :=
        Nat.pos_of_ne_zero fun h => hm (BitVec.eq_of_toNat_eq h)
      have hunpack : UnpackedFloat.unpack .binary64 v =
          .finite (Sign.ofBitVec (@unpackSign .binary64 v)) (@unpackMantissa .binary64 v).toNat
            ((@unpackExponent .binary64 v).toNat - 1075 + 1) hpos :=
        (if_neg h1).trans ((if_pos h0).trans (dif_neg hm))
      rw [hunpack, h0]
      exact ⟨log2_le_iff.mpr (by omega), hlow⟩
  · obtain ⟨s, hpos, hunpack⟩ := unpack_normal h0 h1
    rw [hunpack]
    exact ⟨log2_le_iff.mpr (by omega), by omega⟩

theorem inRange_pack {u : UnpackedFloat} {b : Int} (h : InRange b u) (hb : b ≤ 971) (hlow : -1074 ≤ b) :
    InRange b (Float.Model.pack u).unpack := by
  cases u with
  | zero s => cases s <;> trivial
  | finite s m e hm =>
    have he : e ≤ b := h.2
    obtain ⟨k, hk, hbits⟩ : ∃ k ≤ (e + 1075).toNat, UnpackedFloat.pack .binary64 (.finite s m e hm) =
        packComponents .binary64 s (BitVec.ofNat 11 k) (BitVec.ofNat 52 m) := by
      show ∃ k ≤ (e + 1075).toNat,
        (if 2 ^ 11 ≤ (e + 1023 + 52).toNat + 1 then _ else if m.log2 + 1 = 53 then _ else _) = _
      rw [if_neg (by omega)]
      by_cases hlog : m.log2 + 1 = 53
      · rw [if_pos hlog, Int.add_assoc]
        exact ⟨_, Nat.le_refl _, rfl⟩
      · rw [if_neg hlog]
        exact ⟨0, Nat.zero_le _, rfl⟩
    have hexponent : (@unpackExponent .binary64 (UnpackedFloat.pack .binary64 (.finite s m e hm))).toNat ≤ k := by
      rw [hbits, unpackExponent_packComponents, BitVec.toNat_ofNat]
      exact Nat.mod_le _ _
    exact inRange_unpack (v := UnpackedFloat.pack .binary64 (.finite s m e hm)) (by omega) hb hlow
  | infinity | notANumber => exact h.elim

theorem inRange_pack_of_isInf {u : UnpackedFloat} {b : Int} (h : InRange b u)
    (hinf : (Float.Model.pack u).isInf = false) : InRange 971 (Float.Model.pack u).unpack := by
  cases u with
  | zero s => exact inRange_pack (b := 971) trivial (by omega) (by omega)
  | finite s m e hm => exact inRange_pack ⟨h.1, exponent_le_of_isInf hinf⟩ (by omega) (by omega)
  | infinity | notANumber => exact h.elim

/-! ## Arithmetic -/

section

variable {x y : Float.Model} {b c : Int}

theorem inRange_mul (hx : InRange b x.unpack) (hy : InRange c y.unpack) (hinf : (x * y).isInf = false) :
    InRange 971 (x * y).unpack := by
  have hmul : ∃ d, InRange d (UnpackedFloat.mul .binary64 x.unpack y.unpack) := by
    generalize x.unpack = u at hx
    generalize y.unpack = v at hy
    cases u with
    | zero s =>
      cases v with
      | zero | finite => exact ⟨0, trivial⟩
      | infinity | notANumber => exact hy.elim
    | finite s m e hm =>
      cases v with
      | zero s' => exact ⟨0, trivial⟩
      | finite s' m' e' hm' =>
        exact ⟨max ((m * m').log2 + (e + e')) (max (e + e') (-1074)),
          inRange_round _ _ (by omega) (by omega) (by omega)⟩
      | infinity | notANumber => exact hy.elim
    | infinity | notANumber => exact hx.elim
  obtain ⟨d, hd⟩ := hmul
  exact inRange_pack_of_isInf hd hinf

theorem log2_quotient_le {m m' : Nat} (hm : m.log2 ≤ 52) (hm' : m'.log2 = 52) (h0 : 0 < m') (k : Nat) :
    ((m <<< k) / m').log2 ≤ k := by
  have hlead : 2 ^ 52 ≤ m' := (Nat.le_log2 (by omega)).mp hm'.ge
  rw [log2_le_iff, Nat.div_lt_iff_lt_mul h0, Nat.shiftLeft_eq]
  calc m * 2 ^ k < 2 ^ 53 * 2 ^ k := Nat.mul_lt_mul_of_pos_right (log2_le_iff.mp hm) (Nat.two_pow_pos k)
    _ = 2 ^ (k + 1) * 2 ^ 52 := by rw [← Nat.pow_add, ← Nat.pow_add, show 53 + k = k + 1 + 52 by omega]
    _ ≤ 2 ^ (k + 1) * m' := Nat.mul_le_mul_left _ hlead

theorem inRange_div (hx : InRange b x.unpack)
    (hy : ∃ s m e h, y.unpack = .finite s m e h ∧ m.log2 = 52 ∧ b - c ≤ e) (hc : c ≤ 971) (hlow : -1074 ≤ c) :
    InRange c (x / y).unpack := by
  obtain ⟨s', m', e', h', hy, hlog', hle⟩ := hy
  suffices hdiv : InRange c (UnpackedFloat.div .binary64 x.unpack y.unpack) from inRange_pack hdiv hc hlow
  rw [hy]
  generalize x.unpack = u at hx
  cases u with
  | zero s => trivial
  | finite s m e hm =>
    obtain ⟨hlog, he⟩ := hx
    obtain ⟨k, hk⟩ : ∃ k : Nat, divCore .binary64 m e m' e' =
        ((m <<< k) / m', e - e' - k, accuracyOfFraction ((m <<< k) % m') m') := by
      refine ⟨(e - e' - min (e - e')
        (Format.binary64.targetExponent (totalExponent m e - totalExponent m' e'))).toNat, ?_⟩
      refine Prod.ext rfl (Prod.ext ?_ rfl)
      simp only [divCore]
      omega
    have hquotient := log2_quotient_le hlog hlog' h' k
    show InRange c (roundWithAccuracy _ _ (divCore _ _ _ _ _).1 (divCore _ _ _ _ _).2.1 (divCore _ _ _ _ _).2.2)
    rw [hk]
    exact inRange_round _ _ (by dsimp only; omega) (by dsimp only; omega) hlow
  | infinity | notANumber => exact hx.elim

end

/-! ## Reading -/

namespace Scientific

theorem inRange_toFloat (n : Nat) : InRange 63 n.toUInt64.toFloat.toModel.unpack := by
  have hword : n.toUInt64 = n.toUInt64.toNat.toUInt64 := UInt64.ofNat_toNat.symm
  have hlt : n.toUInt64.toNat < limit := n.toUInt64.toNat_lt
  rw [hword]
  generalize n.toUInt64.toNat = n at hlt
  by_cases h0 : n = 0
  · rw [h0]
    trivial
  · have hlog : n.log2 < 64 := (Nat.log2_lt h0).mpr hlt
    have hshift := log2_shiftLeft_le n (52 - n.log2)
    rw [toFloat_eq h0 hlt]
    exact inRange_pack (inRange_round _ _ (by omega) (by omega) (by omega)) (by omega) (by omega)

theorem exists_largestPower :
    ∃ s m e h, (powerOfTen 308).toModel.unpack = .finite s m e h ∧ m.log2 = 52 ∧ 0 ≤ e := by
  obtain ⟨s, m, e, h, hpower, hlog, -, hge, -⟩ := near_powerOfTen (le_refl 308)
  refine ⟨s, m, e, h, hpower, hlog, ?_⟩
  by_contra hneg
  -- a mantissa has 53 bits, so with a negative exponent the double is less than `2 ^ 53`
  have hlead : (m : ℚ) < 2 ^ 53 := by exact_mod_cast ((Nat.log2_eq_iff h.ne').mp hlog).2
  have hten : (10 : ℚ) ^ 17 ≤ 10 ^ 308 := pow_le_pow_right₀ (by norm_num) (by decide)
  have hsmall : (10 : ℚ) ^ 17 * (1 - 1 / 2 ^ 52) ^ 2 < 2 ^ 53 :=
    calc (10 : ℚ) ^ 17 * (1 - 1 / 2 ^ 52) ^ 2 ≤ 10 ^ 308 * (1 - 1 / 2 ^ 52) ^ 2 :=
          mul_le_mul_of_nonneg_right hten (sq_nonneg _)
      _ ≤ (m : ℚ) * 2 ^ e := hge
      _ ≤ (m : ℚ) * 1 := by
          gcongr
          exact zpow_le_one_of_nonpos₀ (by norm_num) (by omega)
      _ < 2 ^ 53 := by rwa [mul_one]
  norm_num at hsmall

/-- Dividing again and again by the largest power of ten makes no exponent larger. -/
theorem inRange_lower {x : Float} (k : Nat) (hx : InRange 63 x.toModel.unpack) :
    InRange 971 (lower x k).toModel.unpack := by
  fun_induction lower x k with
  | case1 x k hk =>
    obtain ⟨s, m, e, h, hpower, hlog, hlow, -⟩ := near_powerOfTen hk
    exact inRange_div hx ⟨s, m, e, h, hpower, hlog, by omega⟩ (by omega) (by omega)
  | case2 x k hk h0 => exact hx.mono (by omega)
  | case3 x k hk h0 ih =>
    obtain ⟨s, m, e, h, hpower, hlog, hlow⟩ := exists_largestPower
    exact ih (inRange_div hx ⟨s, m, e, h, hpower, hlog, by omega⟩ (by omega) (by omega))

theorem inRange_raise? {x y : Float} {k : Nat} (hx : InRange 63 x.toModel.unpack) (h : raise? x k = some y) :
    InRange 971 y.toModel.unpack := by
  by_cases hk : k ≤ 308
  · obtain ⟨s, m, e, hpos, hpower, hlog, -, -⟩ := near_powerOfTen hk
    have hfinite : InRange e (powerOfTen k).toModel.unpack := by
      rw [hpower]
      exact ⟨hlog.le, le_refl e⟩
    simp only [raise?, if_pos hk] at h
    split at h
    · cases h
    · rename_i hinf
      cases h
      exact inRange_mul hx hfinite (Bool.eq_false_of_not_eq_true hinf)
  · simp only [raise?, if_neg hk] at h
    split at h
    · cases h
      exact hx.mono (by omega)
    · cases h

theorem inRange_toFloat? {x : Scientific} {y : Float} (h : x.toFloat? = some y) : InRange 971 y.toModel.unpack := by
  have hx := inRange_toFloat x.significand
  simp only [toFloat?] at h
  split at h
  · exact inRange_raise? hx h
  · cases h
    exact inRange_lower _ hx

end Scientific

end SharpTree
