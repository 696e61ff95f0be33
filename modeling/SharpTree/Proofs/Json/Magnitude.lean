import SharpTree.Proofs.Decimal.Rounding
import SharpTree.Proofs.Json.Printing

/-!
# The exact values of numerals

`Numeral.magnitude` is the number that is written, without its sign, and
`Numeral.Finite` says that it is rounded to a double and not to an infinity.
Neither says anything of how numbers are read.

Reading keeps the digits that fit into a word, so it begins with a number that is
too small by at most a `2 ^ 60`th part, and goes on with three steps that round.
So a numeral with an exponent of at most 31 bits is converted up to
`2 ^ 1024 - 2 ^ 974` (`Numeral.Within.converts`), and not from `2 ^ 1024 + 2 ^ 975`
on (`Numeral.Converts.notBeyond`).
-/

namespace SharpTree.Json

open Source (digitValue appendDigits appendDigits_append toInteger?)

/-! ## Values as written -/

def Exponent.power (e : Exponent) : Int :=
  if e.negative then -e.magnitude else e.magnitude

namespace Numeral

def decimals (x : Numeral) : List Char :=
  x.fraction.getD []

def power (x : Numeral) : Int :=
  x.exponent.elim 0 Exponent.power

def magnitude (x : Numeral) : ℚ :=
  Nat.ofDigitChars 10 (x.whole ++ x.decimals) 0 * 10 ^ (x.power - x.decimals.length)

/-- The nearest double is not an infinity. Half a step above the largest double, ties go to the even one. -/
def Finite (x : Numeral) : Prop :=
  x.magnitude < 2 ^ 1024 - 2 ^ 970

/-- The exponent takes at most 31 bits. Beyond, it is no longer computed with. -/
def Moderate (x : Numeral) : Prop :=
  ∀ e, x.exponent = some e → e.magnitude < 0x80000000

/-- Small enough to be converted, with whatever is rounded on the way. -/
def Within (x : Numeral) : Prop :=
  x.Moderate ∧ x.magnitude ≤ 2 ^ 1024 - 2 ^ 974

/-- Not so large that it is never converted. -/
def NotBeyond (x : Numeral) : Prop :=
  x.Moderate → x.magnitude < 2 ^ 1024 + 2 ^ 975

section
variable {c : Char} {f : List Char} (hd : Digits (c :: f)) (neg : Bool) (e : Exponent)

theorem decimals_pointed : (pointed neg hd e).decimals = f := by
  simp only [decimals, pointed]
  split
  · rename_i hf; exact hf.symm
  · rfl

theorem magnitude_pointed : (pointed neg hd e).magnitude =
    appendDigits (digitValue c) f * 10 ^ (e.power - f.length) := by
  have hlead : appendDigits 0 (c :: f) = appendDigits (digitValue c) f := by simp [appendDigits]
  rw [magnitude, decimals_pointed, ← hlead]
  rfl

end

end Numeral

/-! ## Significands -/

theorem mul_pow_le_appendDigits : ∀ (w : List Char) (s : Nat), s * 10 ^ w.length ≤ appendDigits s w
  | [], s => by simp [appendDigits]
  | c :: w, s => by
    have hstep : s * 10 ^ (w.length + 1) ≤ (10 * s + digitValue c) * 10 ^ w.length := by
      rw [Nat.pow_succ, Nat.mul_comm (10 ^ _), ← Nat.mul_assoc, Nat.mul_comm s]
      exact Nat.mul_le_mul_right _ (by omega)
    exact Nat.le_trans hstep (mul_pow_le_appendDigits w _)

theorem appendDigits_lt : ∀ {w : List Char} (s : Nat), (∀ c ∈ w, c.isDigit = true) →
    appendDigits s w < (s + 1) * 10 ^ w.length
  | [], s, _ => by simp [appendDigits]
  | c :: w, s, hw => by
    have hc := Source.digitValue_lt (hw c (by simp))
    have hstep : (10 * s + digitValue c + 1) * 10 ^ w.length ≤ (s + 1) * 10 ^ (w.length + 1) := by
      rw [Nat.pow_succ, Nat.mul_comm (10 ^ _), ← Nat.mul_assoc]
      exact Nat.mul_le_mul_right _ (by omega)
    have hrest := @appendDigits_lt w (10 * s + digitValue c) fun d hd => hw d (by simp [hd])
    exact Nat.lt_of_lt_of_le hrest hstep

theorem absorb_split : ∀ (w : List Char) (s : Nat), ∃ u v, w = u ++ v ∧
    Scientific.absorb s (w.map digitValue) = (appendDigits s u, v.map digitValue) ∧
    (∀ c u', u = c :: u' → 10 * s + digitValue c < Scientific.limit) ∧
    ∀ c v', v = c :: v' → Scientific.limit ≤ 10 * appendDigits s u + digitValue c
  | [], s => ⟨[], [], rfl, rfl, by simp, by simp⟩
  | c :: w, s => by
    by_cases hfits : 10 * s + digitValue c < Scientific.limit
    · obtain ⟨u, v, rfl, habsorb, -, hdropped⟩ := absorb_split w (10 * s + digitValue c)
      refine ⟨c :: u, v, rfl, ?_, by rintro _ _ ⟨⟩; exact hfits, hdropped⟩
      rw [List.map_cons, Scientific.absorb, if_pos hfits, habsorb]
      rfl
    · refine ⟨[], c :: w, rfl, ?_, by simp, by rintro _ _ ⟨⟩; exact Nat.not_lt.mp hfits⟩
      rw [List.map_cons, Scientific.absorb, if_neg hfits]
      rfl

theorem le_of_dropped {s : Nat} {c : Char} (hc : c.isDigit = true) (h : Scientific.limit ≤ 10 * s + digitValue c) :
    2 ^ 60 ≤ s := by
  have hlt := Source.digitValue_lt hc
  have hlimit : 10 * 2 ^ 60 + 10 ≤ Scientific.limit := by decide
  omega

theorem mul_le_of_lt {n s t p : Nat} (hs : 2 ^ 60 ≤ s) (hn : n < (s + 1) * p) (ht : s * p ≤ t) :
    n * 2 ^ 60 ≤ t * (2 ^ 60 + 1) :=
  calc n * 2 ^ 60 ≤ (s + 1) * p * 2 ^ 60 := Nat.mul_le_mul_right _ hn.le
    _ = s * p * 2 ^ 60 + 2 ^ 60 * p := by ring
    _ ≤ s * p * 2 ^ 60 + s * p := Nat.add_le_add_left (Nat.mul_le_mul_right _ hs) _
    _ = s * p * (2 ^ 60 + 1) := by ring
    _ ≤ t * (2 ^ 60 + 1) := Nat.mul_le_mul_right _ ht

/-- Digits of the fraction may be kept though one before the point was not. They are then smaller than it. -/
theorem mul_pow_le_of_dropped {s : Nat} {c : Char} {u v w : List Char} (hu : ∀ d ∈ u, d.isDigit = true)
    (hfits : ∀ d u', u = d :: u' → 10 * s + digitValue d < 10 * s + digitValue c) :
    appendDigits s u * 10 ^ ((c :: v).length + w.length) ≤ appendDigits s (c :: v ++ (u ++ w)) := by
  cases u with
  | nil =>
    have hle := mul_pow_le_appendDigits (c :: v ++ w) s
    rwa [List.length_append] at hle
  | cons d u =>
    have hlt := @appendDigits_lt u (10 * s + digitValue d) fun x hx => hu x (by simp [hx])
    calc appendDigits s (d :: u) * 10 ^ ((c :: v).length + w.length)
        ≤ (10 * s + digitValue d + 1) * 10 ^ u.length * 10 ^ ((c :: v).length + w.length) :=
          Nat.mul_le_mul_right _ hlt.le
      _ ≤ (10 * s + digitValue c) * 10 ^ u.length * 10 ^ ((c :: v).length + w.length) :=
          Nat.mul_le_mul_right _ (Nat.mul_le_mul_right _ (hfits d u rfl))
      _ = (10 * s + digitValue c) * 10 ^ (v ++ (d :: u ++ w)).length := by
          rw [Nat.mul_assoc, ← Nat.pow_add]
          congr 2
          simp only [List.length_append, List.length_cons]
          omega
      _ ≤ appendDigits s (c :: v ++ (d :: u ++ w)) := mul_pow_le_appendDigits _ (10 * s + digitValue c)

namespace Numeral

theorem decimals_digits (x : Numeral) : ∀ c ∈ x.decimals, c.isDigit = true := by
  unfold decimals
  cases hf : x.fraction with
  | none => simp
  | some f => exact (x.fraction_run f hf).2

theorem significand_lt (x : Numeral) : x.decimal.significand < Scientific.limit :=
  absorb_lt (absorb_lt (by decide))

/-- Each part of a numeral is cut where a digit no longer fits into a word. -/
theorem exists_split (x : Numeral) : ∃ u v u' v', x.whole = u ++ v ∧ x.decimals = u' ++ v' ∧
    x.decimal = ⟨appendDigits (appendDigits 0 u) u', v.length - (u'.length : Nat)⟩ ∧
    (∀ c t, v = c :: t → Scientific.limit ≤ 10 * appendDigits 0 u + digitValue c) ∧
    (∀ c t, u' = c :: t → 10 * appendDigits 0 u + digitValue c < Scientific.limit) ∧
    ∀ c t, v' = c :: t → Scientific.limit ≤ 10 * appendDigits (appendDigits 0 u) u' + digitValue c := by
  obtain ⟨u, v, hwhole, habsorb, -, hdropped⟩ := absorb_split x.whole 0
  obtain ⟨u', v', hfraction, habsorb', hfits', hdropped'⟩ := absorb_split x.decimals (appendDigits 0 u)
  refine ⟨u, v, u', v', hwhole, hfraction, ?_, hdropped, hfits', hdropped'⟩
  have hint : x.integer = ⟨appendDigits 0 u, v.length⟩ := by
    simp [integer, Scientific.ofInteger, habsorb]
  show x.integer.addFraction (x.decimals.map digitValue) = _
  rw [hint, Scientific.addFraction]
  dsimp only
  rw [habsorb', hfraction]
  simp

/-- What is kept of the digits is less than all of them by at most a `2 ^ 60`th part. -/
theorem exists_decimal (x : Numeral) : ∃ k : Nat, x.decimal.exponent = k - x.decimals.length ∧
    x.decimal.significand * 10 ^ k ≤ appendDigits 0 (x.whole ++ x.decimals) ∧
    appendDigits 0 (x.whole ++ x.decimals) * 2 ^ 60 ≤ x.decimal.significand * 10 ^ k * (2 ^ 60 + 1) := by
  obtain ⟨u, v, u', v', hwhole, hfraction, hdecimal, hdropped, hfits', hdropped'⟩ := x.exists_split
  have hdigits : appendDigits 0 (x.whole ++ x.decimals) = appendDigits (appendDigits 0 u) (v ++ (u' ++ v')) := by
    rw [hwhole, hfraction, List.append_assoc, appendDigits_append]
  have hv : ∀ c ∈ v, c.isDigit = true := fun c hc => x.whole_run.2 c (by simp [hwhole, hc])
  have hf : ∀ c ∈ u' ++ v', c.isDigit = true := fun c hc => x.decimals_digits c (hfraction ▸ hc)
  refine ⟨v.length + v'.length, by rw [hdecimal, hfraction]; simp, ?_⟩
  rw [hdigits, hdecimal]
  generalize appendDigits 0 u = s at *
  cases v with
  | nil =>
    have hle := mul_pow_le_appendDigits v' (appendDigits s u')
    rw [List.nil_append, appendDigits_append, List.length_nil, Nat.zero_add]
    refine ⟨hle, ?_⟩
    cases v' with
    | nil => exact Nat.mul_le_mul (by simp [appendDigits]) (by decide)
    | cons c v' =>
      have hlong := le_of_dropped (hf c (by simp)) (hdropped' c v' rfl)
      exact mul_le_of_lt hlong (appendDigits_lt _ fun d hd => hf d (by simp [hd])) le_rfl
  | cons c v =>
    have hlimit := hdropped c v rfl
    refine ⟨mul_pow_le_of_dropped (fun d hd => hf d (by simp [hd])) fun d t h => ?_, ?_⟩
    · exact Nat.lt_of_lt_of_le (hfits' d t h) hlimit
    · have hall : ∀ d ∈ c :: v ++ (u' ++ v'), d.isDigit = true := fun d hd =>
        (List.mem_append.mp hd).elim (hv d) (hf d)
      refine mul_le_of_lt (le_of_dropped (hv c (by simp)) hlimit) (appendDigits_lt s hall) ?_
      calc s * 10 ^ (c :: v ++ (u' ++ v')).length = s * 10 ^ u'.length * 10 ^ ((c :: v).length + v'.length) := by
            rw [Nat.mul_assoc, ← Nat.pow_add]
            congr 2
            simp only [List.length_append, List.length_cons]
            omega
        _ ≤ appendDigits s u' * 10 ^ ((c :: v).length + v'.length) :=
            Nat.mul_le_mul_right _ (mul_pow_le_appendDigits u' s)

/-- The number that the conversion begins with. -/
def kept (x : Numeral) : ℚ :=
  x.decimal.significand * 10 ^ (x.decimal.exponent + x.power)

theorem kept_bounds (x : Numeral) : x.kept ≤ x.magnitude ∧ x.magnitude ≤ x.kept * (1 + 1 / 2 ^ 60) := by
  obtain ⟨k, hexp, hlow, hhigh⟩ := x.exists_decimal
  have hkept : x.kept = x.decimal.significand * 10 ^ k * 10 ^ (x.power - x.decimals.length) := by
    rw [kept, hexp, ← zpow_natCast, mul_assoc, ← zpow_add₀ (by norm_num)]
    congr 2
    ring
  have hwritten : x.magnitude =
      appendDigits 0 (x.whole ++ x.decimals) * 10 ^ (x.power - x.decimals.length) := rfl
  rw [hkept, hwritten]
  generalize appendDigits 0 (x.whole ++ x.decimals) = n at *
  generalize x.decimal.significand = s at *
  have hlow' : (s : ℚ) * 10 ^ k ≤ n := by exact_mod_cast hlow
  have hhigh' : (n : ℚ) * 2 ^ 60 ≤ s * 10 ^ k * (2 ^ 60 + 1) := by exact_mod_cast hhigh
  constructor
  · gcongr
  · calc (n : ℚ) * 10 ^ (x.power - x.decimals.length)
        = n * 2 ^ 60 * 10 ^ (x.power - x.decimals.length) / 2 ^ 60 := by ring
      _ ≤ s * 10 ^ k * (2 ^ 60 + 1) * 10 ^ (x.power - x.decimals.length) / 2 ^ 60 := by gcongr
      _ = s * 10 ^ k * 10 ^ (x.power - x.decimals.length) * (1 + 1 / 2 ^ 60) := by ring

/-! ## Conversion -/

theorem value?_moderate {x : Numeral} (hx : x.Moderate) :
    x.value? = x.double? (x.decimal.shift x.power) ∨
      (x.decimal.shift x.power).exponent = 0 ∧ ∃ z, x.value? = some (.int z) := by
  unfold value?
  cases he : x.exponent with
  | none =>
    have hshift : x.decimal.shift x.power = x.decimal := by
      simp [power, he, Scientific.shift]
    rw [hshift]
    cases hf : x.fraction with
    | some f => exact .inl rfl
    | none =>
      have hdecimal : x.decimal = x.integer := by
        simp [decimal, hf, Scientific.addFraction, Scientific.absorb]
      cases hz : toInteger? x.negative x.integer with
      | none => exact .inl rfl
      | some z =>
        refine .inr ⟨?_, z, rfl⟩
        rw [hdecimal]
        by_contra h
        simp [toInteger?, h] at hz
  | some e =>
    have hpower : x.power = e.power := by rw [power, he, Option.elim_some]
    dsimp only
    rw [if_pos (hx e he), hpower]
    exact .inl rfl

theorem converts_of_le_ceiling {x : Numeral} (hx : x.Moderate) (hle : x.magnitude ≤ Scientific.ceiling) :
    x.Converts := by
  obtain hdouble | ⟨-, z, hint⟩ := value?_moderate hx
  · obtain ⟨y, hy⟩ := Scientific.exists_toFloat (x := x.decimal.shift x.power) x.significand_lt
      (x.kept_bounds.1.trans hle)
    rw [Converts, hdouble, double?, hy]
    rfl
  · rw [Converts, hint]
    rfl

theorem Within.converts {x : Numeral} (h : x.Within) : x.Converts := by
  refine converts_of_le_ceiling h.1 (h.2.trans ?_)
  have hceiling : (Scientific.ceiling : ℚ) = (2 ^ 54 - 13) * 2 ^ 970 := by
    rw [Scientific.ceiling, Nat.cast_mul, Nat.cast_pow 2 970, Nat.cast_ofNat]
    norm_num
  calc (2 : ℚ) ^ 1024 - 2 ^ 974 = (2 ^ 54 - 2 ^ 4) * 2 ^ 970 := by
        rw [sub_mul, ← pow_add, ← pow_add]
    _ ≤ (2 ^ 54 - 13) * 2 ^ 970 := by gcongr; norm_num
    _ = Scientific.ceiling := hceiling.symm

/-- What is lost by leaving out digits and by rounding makes no number beyond the range small enough. -/
theorem Converts.notBeyond {x : Numeral} (h : x.Converts) : x.NotBeyond := by
  intro hx
  have h0 : 0 ≤ x.kept := by unfold kept; positivity
  have hkept : x.kept * (1 - 1 / 2 ^ 52) ^ 6 < 2 ^ 1024 := by
    obtain hdouble | ⟨hexp, -⟩ := value?_moderate hx
    · rw [Converts, hdouble, double?, Option.isSome_map] at h
      obtain ⟨y, hy⟩ := Option.isSome_iff_exists.mp h
      exact Scientific.lt_of_toFloat (x := x.decimal.shift x.power) x.significand_lt hy
    · have hword : (x.decimal.significand : ℚ) ≤ 2 ^ 64 := by exact_mod_cast x.significand_lt.le
      have hone : x.kept = x.decimal.significand := by
        rw [kept, show x.decimal.exponent + x.power = 0 from hexp, zpow_zero, mul_one]
      refine lt_range ?_
      calc x.kept * (1 - 1 / 2 ^ 52) ^ 6 ≤ 2 ^ 64 * 1 := by rw [hone]; gcongr; norm_num
        _ < 2 ^ 65 := by norm_num
  have hlost : (1 + 1 / 2 ^ 60 : ℚ) ≤ (1 - 1 / 2 ^ 52) ^ 6 * (1 + 1 / 2 ^ 49) := by norm_num
  calc x.magnitude ≤ x.kept * (1 + 1 / 2 ^ 60) := x.kept_bounds.2
    _ ≤ x.kept * ((1 - 1 / 2 ^ 52) ^ 6 * (1 + 1 / 2 ^ 49)) := by gcongr
    _ = x.kept * (1 - 1 / 2 ^ 52) ^ 6 * (1 + 1 / 2 ^ 49) := by ring
    _ < 2 ^ 1024 * (1 + 1 / 2 ^ 49) := mul_lt_mul_of_pos_right hkept (by norm_num)
    _ = 2 ^ 1024 + 2 ^ 975 := by
        rw [mul_add, mul_one, show (1024 : Nat) = 975 + 49 from rfl, pow_add, mul_assoc,
          mul_one_div_cancel (by norm_num), mul_one]

end Numeral

end SharpTree.Json
