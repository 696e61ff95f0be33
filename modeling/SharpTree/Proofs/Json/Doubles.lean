import SharpTree.Proofs.Decimal.Range
import SharpTree.Proofs.Decimal.Shortest
import SharpTree.Proofs.Json.Magnitude

/-!
# The texts of doubles can be read

A double is not always read back from its text as itself, since each step of
reading rounds. But what is read never leaves the range of doubles. A text with
a point and no exponent is a quotient, so only the texts with a positive exponent
have to be bounded. The largest doubles come too near to the end of the range
for the bound, and are read one by one.

So every number that is read can be written and read once more.
-/

namespace SharpTree.Json

open Source (digitValue appendDigits)

/-- Digits that a number can be read from, with a sign and without. -/
def Legible (w : List Char) : Prop :=
  ∀ neg : Bool, ∃ n, SpellsNumber n (if neg then '-' :: w else w)

theorem Numeral.legible {w : List Char}
    (h : ∀ neg, ∃ x : Numeral, x.negative = neg ∧ x.body = w ∧ ∃ n, x.value? = some n) :
    Legible w := by
  intro neg
  obtain ⟨x, rfl, rfl, n, hn⟩ := h neg
  exact ⟨n, x, hn, rfl⟩

/-! ## Numbers with a point -/

theorem length_absorb_le (w : List Char) (s : Nat) :
    (Scientific.absorb s (w.map digitValue)).2.length ≤ w.length := by
  obtain ⟨u, v, rfl, habsorb, -⟩ := absorb_split w s
  rw [habsorb]
  simp

theorem exists_toFloat_of_neg {x : Scientific} (h : x.exponent < 0) : ∃ y, x.toFloat? = some y := by
  simp [Scientific.toFloat?, show ¬ 0 ≤ x.exponent by omega]

theorem exists_double (x : Numeral) {y : Scientific} (h : ∃ z, y.toFloat? = some z) :
    ∃ n, x.double? y = some n := by
  obtain ⟨z, hz⟩ := h
  simp [Numeral.double?, hz]

theorem legible_point {w f : List Char} (hw : Digits w) (hz : w.head? = some '0' → w = ['0']) (hlen : w.length ≤ 16)
    (hf : Digits f) : Legible (w ++ '.' :: f) := by
  refine Numeral.legible fun neg => ?_
  obtain ⟨d, f, rfl⟩ := List.exists_cons_of_ne_nil hf.1
  let x : Numeral := ⟨neg, w, some (d :: f), none, hw, hz, fun _ h => by cases h; exact hf⟩
  have hwhole : appendDigits 0 w < 10 ^ 16 :=
    Nat.lt_of_lt_of_le (appendDigits_lt 0 hw.2) (by simpa using Nat.pow_le_pow_right (by decide) hlen)
  have hinteger : x.integer = ⟨appendDigits 0 w, 0⟩ := by
    have habsorb := absorb_digits (Nat.lt_trans hwhole (by decide))
    simp [x, Numeral.integer, Scientific.ofInteger, habsorb]
  have hdigit := Source.digitValue_lt (hf.2 d (by simp))
  have hfits : 10 * appendDigits 0 w + digitValue d < Scientific.limit := by
    have : 10 * 10 ^ 16 < Scientific.limit := by decide
    omega
  have hneg : x.decimal.exponent < 0 := by
    have hdropped := length_absorb_le f (10 * appendDigits 0 w + digitValue d)
    rw [Numeral.decimal, hinteger]
    simp only [x, Option.getD_some, List.map_cons, Scientific.addFraction, Scientific.absorb, if_pos hfits,
      List.length_cons, List.length_map]
    omega
  refine ⟨x, rfl, by simp [x, Numeral.body], ?_⟩
  exact exists_double x (exists_toFloat_of_neg hneg)

/-! ## Exponents -/

theorem digits_toDigits (n : Nat) : Digits (Nat.toDigits 10 n) :=
  ⟨Nat.toDigits_ne_nil, fun _ hc => Nat.isDigit_of_mem_toDigits (by decide) (by decide) hc⟩

def Exponent.ofInt (power : Int) : Exponent :=
  .lower (some (decide (power < 0))) (digits_toDigits power.natAbs)

theorem Exponent.magnitude_ofInt (power : Int) : (ofInt power).magnitude = power.natAbs :=
  Nat.ofDigitChars_ten_toDigits

theorem Exponent.power_ofInt (power : Int) : (ofInt power).power = power := by
  have hneg : (ofInt power).negative = decide (power < 0) := rfl
  rw [Exponent.power, magnitude_ofInt, hneg]
  by_cases h : power < 0
  · rw [decide_eq_true h, if_pos rfl]; omega
  · rw [decide_eq_false h, if_neg (by decide)]; omega

theorem raised_le {a n len k : Nat} {e : Int} (h : a * 10 ^ len ≤ n) (hle : (n : ℚ) * 10 ^ e ≤ Scientific.ceiling)
    (hk : len + e = k) : a * 10 ^ k ≤ Scientific.ceiling := by
  have hcast : (a : ℚ) * 10 ^ len ≤ n := by exact_mod_cast h
  have hraised : (a : ℚ) * 10 ^ k ≤ Scientific.ceiling :=
    calc (a : ℚ) * 10 ^ k = a * 10 ^ len * 10 ^ e := by
          rw [← zpow_natCast, ← zpow_natCast, mul_assoc, ← zpow_add₀ (by norm_num), hk]
      _ ≤ n * 10 ^ e := by gcongr
      _ ≤ Scientific.ceiling := hle
  exact_mod_cast hraised

section
variable {c : Char} {f : List Char} (hd : Digits (c :: f)) (neg : Bool) (power : Int)

theorem power_le (h0 : digitValue c ≠ 0)
    (hle : (appendDigits (digitValue c) f : ℚ) * 10 ^ (power - f.length) ≤ Scientific.ceiling) : power ≤ 308 := by
  by_cases hneg : power < 0
  · omega
  obtain ⟨k, rfl⟩ := Int.eq_ofNat_of_zero_le (Int.not_lt.mp hneg)
  have hlead := mul_pow_le_appendDigits f (digitValue c)
  have hk := Scientific.exponent_le_of_ceiling h0 (raised_le hlead hle (add_sub_cancel _ _))
  omega

theorem converts_pointed (h0 : digitValue c ≠ 0)
    (hle : (appendDigits (digitValue c) f : ℚ) * 10 ^ (power - f.length) ≤ Scientific.ceiling) :
    (Numeral.pointed neg hd (.ofInt power)).Converts := by
  have hexp : (Numeral.pointed neg hd (.ofInt power)).exponent = some (.ofInt power) := rfl
  by_cases hmod : power.natAbs < 0x80000000
  · have hvalue := Numeral.magnitude_pointed hd neg (.ofInt power)
    rw [Exponent.power_ofInt] at hvalue
    refine Numeral.converts_of_le_ceiling (fun e he => ?_) (hvalue.trans_le hle)
    cases he
    rwa [Exponent.magnitude_ofInt]
  · have hpower := power_le power h0 hle
    have hneg : (Exponent.ofInt power).negative = true := decide_eq_true (by omega)
    simp [Numeral.Converts, Numeral.value?, hexp, Exponent.magnitude_ofInt, hmod, hneg]

end

theorem legible_scaled {c : Char} {f : List Char} (hd : Digits (c :: f)) {power : Int} (h0 : digitValue c ≠ 0)
    (hle : (appendDigits (digitValue c) f : ℚ) * 10 ^ (power - f.length) ≤ Scientific.ceiling) :
    Legible ((c :: (if f = [] then [] else '.' :: f)) ++ 'e' :: (if power < 0 then '-' else '+') ::
      Nat.toDigits 10 power.natAbs) := by
  refine Numeral.legible fun neg => ⟨.pointed neg hd (.ofInt power), rfl, ?_, ?_⟩
  · by_cases hf : f = [] <;> by_cases hneg : power < 0 <;>
      simp [Numeral.body, Numeral.pointed, Exponent.text, Exponent.ofInt, Exponent.lower, Exponent.signText, hf,
        hneg]
  · exact Option.isSome_iff_exists.mp (converts_pointed hd neg power h0 hle)

/-! ## Shortest forms -/

theorem digitValue_ne_zero {c : Char} (hc : c.isDigit = true) (h0 : c ≠ '0') : digitValue c ≠ 0 := by
  simp only [Char.isDigit, Bool.and_eq_true, decide_eq_true_eq, ge_iff_le, UInt32.le_iff_toNat_le] at hc
  have hlow : '0'.toNat ≤ c.toNat := hc.1
  have hne : c.toNat ≠ '0'.toNat := fun h => h0 (Char.toNat_inj.mp h)
  unfold digitValue
  omega

theorem digits_replicate {k : Nat} {w : List Char} (hw : Digits w) :
    Digits (List.replicate k '0' ++ w) ∧ Digits (w ++ List.replicate k '0') := by
  have hzero : ∀ c ∈ List.replicate k '0', c.isDigit = true := fun c hc => by rw [List.eq_of_mem_replicate hc]; rfl
  constructor
  · exact ⟨by simp [hw.1], fun c hc => (List.mem_append.mp hc).elim (hzero c) (hw.2 c)⟩
  · exact ⟨by simp [hw.1], fun c hc => (List.mem_append.mp hc).elim (hw.2 c) (hzero c)⟩

/-- A number is legible in each layout, if it is in the one with an exponent. -/
theorem legible_layout {n : Nat} {e : Int} {c : Char} {f : List Char} (hcf : Nat.toDigits 10 n = c :: f)
    (hc : c ≠ '0') (hscaled : Legible ((c :: (if f = [] then [] else '.' :: f)) ++ 'e' ::
      (if f.length + e < 0 then '-' else '+') :: Nat.toDigits 10 (f.length + e).natAbs)) :
    Legible (decimalText ⟨n, e⟩) := by
  have hd : Digits (c :: f) := hcf ▸ digits_toDigits n
  have hhead : ∀ w : List Char, (c :: w).head? = some '0' → c :: w = ['0'] :=
    fun w h => absurd (by simpa using h) hc
  simp only [decimalText, hcf]
  split
  · rename_i hpoint
    simp only [Bool.and_eq_true, decide_eq_true_eq] at hpoint
    split
    · exact legible_point (digits_replicate hd).2 (hhead _) (by simp at *; omega) ⟨by simp, by simp⟩
    · rename_i hlen
      obtain ⟨k, hk⟩ := Nat.exists_eq_succ_of_ne_zero (n := (((c :: f).length : Int) + e).toNat) (by omega)
      rw [hk] at hlen ⊢
      refine legible_point ⟨by simp, fun d h => hd.2 d (List.mem_of_mem_take h)⟩ (hhead _) ?_
        ⟨by simpa using hlen, fun d h => hd.2 d (List.mem_of_mem_drop h)⟩
      exact Nat.le_trans (List.length_take_le _ _) (by omega)
  split
  · exact legible_point (w := ['0']) ⟨by simp, by simp⟩ (by simp) (by simp) (digits_replicate hd).1
  · have hpower : ((c :: f).length : Int) + e - 1 = f.length + e := by simp only [List.length_cons]; omega
    rw [hpower]
    cases f with
    | nil => simpa using hscaled
    | cons d f => simpa using hscaled

theorem legible_decimalText {d : Shortest} (h0 : d.digits ≠ 0)
    (hle : (d.digits : ℚ) * 10 ^ d.exponent ≤ Scientific.ceiling) : Legible (decimalText d) := by
  obtain ⟨n, e⟩ := d
  dsimp only at h0 hle
  obtain ⟨c, f, hcf⟩ := List.exists_cons_of_ne_nil (Nat.toDigits_ne_nil (n := n) (b := 10))
  have hd : Digits (c :: f) := hcf ▸ digits_toDigits n
  have hc : c ≠ '0' := by
    rintro rfl
    exact h0 (toDigits_head n (by rw [hcf]; rfl))
  have hn : appendDigits (digitValue c) f = n := by
    have hall : appendDigits 0 (Nat.toDigits 10 n) = n := Nat.ofDigitChars_ten_toDigits
    rw [hcf] at hall
    simpa [appendDigits] using hall
  refine legible_layout hcf hc (legible_scaled hd (digitValue_ne_zero (hd.2 c (by simp)) hc) ?_)
  have he : (f.length + e : Int) - f.length = e := add_sub_cancel_left _ _
  rw [hn, he]
  exact hle

theorem legible_of_number {w : List Char}
    (h : ∀ neg, (Source.number neg w).toOption.map Prod.snd = some []) : Legible w := by
  refine Numeral.legible fun neg => ?_
  have hread := h neg
  cases hn : Source.number neg w with
  | error e => rw [hn] at hread; cases hread
  | ok a =>
    obtain ⟨n, rest⟩ := a
    rw [hn] at hread
    cases hread
    obtain ⟨x, hneg, hv, hw⟩ := Source.number_spells hn
    exact ⟨x, hneg, by simpa using hw.symm, n, hv⟩

/-- The six largest doubles. -/
theorem legible_top {i : Nat} (hi : i < 6) : Legible (decimalText (.ofBinary ⟨2 ^ 53 - 1 - i, 971, false⟩)) := by
  have hread : ∀ i < 6, ∀ neg, (Source.number neg
      (decimalText (.ofBinary ⟨2 ^ 53 - 1 - i, 971, false⟩))).toOption.map Prod.snd = some [] := by
    decide +kernel
  exact legible_of_number (hread i hi)

theorem legible_zero : Legible ['0', '.', '0'] :=
  legible_point (w := ['0']) ⟨by simp, by simp⟩ (by simp) (by simp) ⟨by simp, by simp⟩

theorem legible_finite {x : Float} (hx : x.isFinite = true) (h0 : (x == 0) = false) :
    Legible (decimalText (.ofBinary (.ofFloat x))) := by
  obtain ⟨hm, he, htight⟩ := Binary.ofFloat_bounds hx
  have hne : (Binary.ofFloat x).mantissa ≠ 0 := fun h => by
    rw [Binary.eq_zero_of_mantissa h] at h0
    cases h0
  generalize Binary.ofFloat x = b at *
  by_cases htop : b.exponent = 971 ∧ 2 ^ 53 ≤ b.mantissa + 6
  · obtain ⟨m, e, t⟩ := b
    dsimp only at hm htight htop
    obtain ⟨rfl, hlow⟩ := htop
    have ht : t = false := by
      cases t with
      | false => rfl
      | true => have := htight rfl; omega
    obtain ⟨i, hi, rfl⟩ : ∃ i < 6, m = 2 ^ 53 - 1 - i := ⟨2 ^ 53 - 1 - m, by omega, by omega⟩
    rw [ht]
    exact legible_top hi
  · have hhalf := Binary.half_step_le hm he (by omega)
    obtain hzero | hgrid := Shortest.ofBinary_cases b
    · rw [hzero]
      exact legible_zero
    · exact legible_decimalText (Shortest.onGrid?_ne_zero hne hgrid) ((Shortest.onGrid?_le hgrid).trans hhalf)

/-- A number that a value can hold: a word, or a double other than an infinity or not-a-number. -/
def Number.Storable : Number → Prop
  | .int z => (Number.int z).Fits
  | .float x => x.isFinite = true

theorem exists_spells_text {n : Number} (h : n.Storable) : ∃ m, SpellsNumber m n.text := by
  cases n with
  | int z => exact ⟨.int z, spellsNumber_text h⟩
  | float x =>
    have hdigits : Legible (if x == 0 then ['0', '.', '0'] else decimalText (.ofBinary (.ofFloat x))) := by
      by_cases h0 : (x == 0) = true
      · rw [if_pos h0]
        exact legible_zero
      · rw [if_neg h0]
        exact legible_finite h (Bool.eq_false_of_not_eq_true h0)
    obtain ⟨m, hm⟩ := hdigits (decide (Binary.signBit ≤ x.toBits.toNat))
    simp only [decide_eq_true_eq] at hm
    exact ⟨m, hm⟩

/-! ## Numbers that are read -/

/-- No numeral is read as an infinity or as not-a-number. -/
theorem Numeral.storable_of_double? {x : Numeral} {y : Scientific} {n : Number} (h : x.double? y = some n) :
    n.Storable := by
  obtain ⟨f, hf, rfl⟩ := Option.map_eq_some_iff.mp h
  have hrange := Scientific.inRange_toFloat? hf
  cases x.negative with
  | false => exact hrange.isFinite
  | true => exact (inRange_pack hrange.neg (by decide) (by decide)).isFinite

theorem storable_of_spells {n : Number} {w : List Char} (h : SpellsNumber n w) : n.Storable := by
  cases n with
  | int z => exact fits_of_spells h
  | float f =>
    obtain ⟨x, hx, -⟩ := h
    unfold Numeral.value? at hx
    split at hx
    · split at hx
      · cases hx
      · exact Numeral.storable_of_double? hx
    · split at hx
      · exact Numeral.storable_of_double? hx
      · split at hx
        · cases hx
          show Float.isFinite (if x.negative then -0.0 else 0.0) = true
          cases x.negative <;> decide
        · cases hx

theorem Value.storable_numbers {v : Value} {w : List Char} (h : v.Document w) : ∀ x ∈ v.numbers, x.Storable := by
  obtain ⟨_, u, _, _, hu, _, _⟩ := h
  intro x hx
  obtain ⟨_, hspells⟩ := Value.spelled_numbers hu x hx
  exact storable_of_spells hspells

end SharpTree.Json
