import SharpTree.Proofs.Source.Text

/-!
# Numbers are read from their numerals

The reader of numbers takes the parts of a numeral one after the other, each as
long as it goes. So a numeral is read back only from a text that does not go on
with a character that could belong to it (`Boundary`).
-/

namespace SharpTree.Source

open Json

/-! ## Runs of digits -/

def NoDigit (rest : List Char) : Prop :=
  ∀ c ∈ rest.head?, c.isDigit = false

/-- A text that cannot go on a number. -/
def Boundary (rest : List Char) : Prop :=
  ∀ c ∈ rest.head?, c.isDigit = false ∧ c ≠ '.' ∧ c ≠ 'e' ∧ c ≠ 'E'

theorem Boundary.noDigit {rest : List Char} (h : Boundary rest) : NoDigit rest :=
  fun c hc => (h c hc).1

theorem dropWhile_digits {w rest : List Char} (hw : ∀ c ∈ w, c.isDigit = true) (hr : NoDigit rest) :
    (w ++ rest).dropWhile Char.isDigit = rest := by
  rw [List.dropWhile_append_of_pos hw]
  cases rest with
  | nil => rfl
  | cons c rest => rw [List.dropWhile_cons, hr c rfl]; rfl

theorem digits_append {w rest : List Char} (hw : ∀ c ∈ w, c.isDigit = true) (hr : NoDigit rest) :
    digits (w ++ rest) = (w.map digitValue, rest) := by
  unfold digits
  rw [dropWhile_digits hw hr, List.takeWhile_append_of_pos hw]
  cases rest with
  | nil => simp
  | cons c rest => rw [List.takeWhile_cons, hr c rfl]; simp

theorem noDigit_dropWhile (text : List Char) : NoDigit (text.dropWhile Char.isDigit) := by
  intro c hc
  cases h : text.dropWhile Char.isDigit with
  | nil => rw [h] at hc; cases hc
  | cons d rest =>
    have := List.head?_dropWhile_not Char.isDigit text
    rw [h] at this hc
    cases hc
    simpa using this

theorem exists_digits (text : List Char) :
    ∃ w rest, (∀ c ∈ w, c.isDigit = true) ∧ NoDigit rest ∧ text = w ++ rest :=
  ⟨text.takeWhile Char.isDigit, text.dropWhile Char.isDigit,
    fun c hc => List.all_eq_true.mp List.all_takeWhile c hc,
    noDigit_dropWhile text, List.takeWhile_append_dropWhile.symm⟩

theorem digits_cons {c : Char} {w : List Char} (hc : c.isDigit = true) (hw : ∀ c ∈ w, c.isDigit = true) :
    Digits (c :: w) :=
  ⟨by simp, fun x hx => by cases hx with | head => exact hc | tail _ h => exact hw x h⟩

/-! ## The parts of a numeral -/

theorem wholePart_spells {text rest : List Char} {ds : List Nat} (h : wholePart text = .ok (ds, rest)) :
    ∃ w, Digits w ∧ (w.head? = some '0' → w = ['0']) ∧ ds = w.map digitValue ∧ text = w ++ rest := by
  cases text with
  | nil => cases h
  | cons c after =>
    simp only [wholePart] at h
    split at h
    · rename_i hc
      split at h
      · cases h
      · rename_i hz
        obtain ⟨w, r, hw, hr, rfl⟩ := exists_digits after
        have hcw := digits_cons hc hw
        rw [← List.cons_append, digits_append hcw.2 hr] at h
        cases h
        refine ⟨c :: w, hcw, ?_, rfl, rfl⟩
        intro h0
        cases w with
        | nil => rw [List.head?_cons, Option.some.injEq] at h0; rw [h0]
        | cons d w =>
          -- a digit after the zero is what the reader has refused
          have hd : d.isDigit = true := hw d (by simp)
          simp_all
    · cases h

theorem wholePart_read {w rest : List Char} (hw : Digits w) (hz : w.head? = some '0' → w = ['0'])
    (hr : NoDigit rest) : wholePart (w ++ rest) = .ok (w.map digitValue, rest) := by
  cases w with
  | nil => exact absurd rfl hw.1
  | cons c w =>
    have hc : c.isDigit = true := hw.2 c (by simp)
    have hno : (c = '0' && (w ++ rest).head?.any Char.isDigit) = false := by
      by_cases h0 : c = '0'
      · have : w = [] := (List.cons.inj (hz (by simp [h0]))).2
        subst this
        cases rest with
        | nil => simp
        | cons d rest => simp [hr d rfl]
      · simp [h0]
    simp only [List.cons_append, wholePart, hc, if_true, hno, Bool.false_eq_true, if_false]
    rw [← List.cons_append, digits_append hw.2 hr]

theorem fractionPart_spells {text rest : List Char} {o : Option (List Nat)}
    (h : fractionPart text = .ok (o, rest)) :
    ∃ f : Option (List Char), (∀ w, f = some w → Digits w) ∧ o = f.map (·.map digitValue) ∧
      text = f.elim [] ('.' :: ·) ++ rest := by
  unfold fractionPart at h
  split at h
  · rename_i after
    obtain ⟨w, r, hw, hr, rfl⟩ := exists_digits after
    rw [digits_append hw hr] at h
    cases w with
    | nil => cases r <;> cases h
    | cons c w =>
      cases h
      refine ⟨some (c :: w), ?_, rfl, rfl⟩
      intro w' hw'
      cases hw'
      exact ⟨by simp, hw⟩
  · cases h
    refine ⟨none, ?_, rfl, rfl⟩
    intro w hw
    cases hw

theorem fractionPart_read {f : Option (List Char)} {rest : List Char} (hf : ∀ w, f = some w → Digits w)
    (hr : NoDigit rest) (hp : rest.head? ≠ some '.') :
    fractionPart (f.elim [] ('.' :: ·) ++ rest) = .ok (f.map (·.map digitValue), rest) := by
  cases f with
  | none =>
    simp only [Option.elim_none, List.nil_append, Option.map_none]
    unfold fractionPart
    split
    · exact absurd rfl hp
    · rfl
  | some w =>
    have hw := hf w rfl
    cases w with
    | nil => exact absurd rfl hw.1
    | cons c w =>
      rw [Option.elim_some, List.cons_append]
      simp only [fractionPart]
      rw [digits_append hw.2 hr]
      rfl

/-! ## Exponents -/

def appendDigits (n : Nat) (w : List Char) : Nat :=
  w.foldl (fun n c => 10 * n + digitValue c) n

theorem le_appendDigits : ∀ (w : List Char) (n : Nat), n ≤ appendDigits n w
  | [], _ => Nat.le_refl _
  | c :: w, n => Nat.le_trans (by omega) (le_appendDigits w (10 * n + digitValue c))

theorem appendDigits_append (n : Nat) (v w : List Char) :
    appendDigits n (v ++ w) = appendDigits (appendDigits n v) w :=
  List.foldl_append

theorem powerDigits_read {w rest : List Char} (hr : NoDigit rest) : ∀ {n : Nat}, (∀ c ∈ w, c.isDigit = true) →
    appendDigits n w < 0x80000000 → powerDigits n (w ++ rest) = (some (appendDigits n w), rest) := by
  induction w with
  | nil =>
    intro n _ _
    cases rest with
    | nil => rfl
    | cons c rest => simp [powerDigits, hr c rfl, appendDigits]
  | cons c w ih =>
    intro n hw hlt
    have hle := le_appendDigits w (10 * n + digitValue c)
    have hc : 10 * n + digitValue c < 0x80000000 := Nat.lt_of_le_of_lt hle hlt
    simp only [List.cons_append, powerDigits, hw c (by simp), if_true, if_pos hc]
    exact ih (fun x hx => hw x (by simp [hx])) hlt

theorem powerDigits_beyond {w : List Char} (rest : List Char) :
    ∀ {n : Nat}, (∀ c ∈ w, c.isDigit = true) → n < 0x80000000 → 0x80000000 ≤ appendDigits n w →
    ∃ v, (∀ c ∈ v, c.isDigit = true) ∧ powerDigits n (w ++ rest) = (none, v ++ rest) := by
  induction w with
  | nil => intro n _ hn hle; exact absurd hle (Nat.not_le.mpr hn)
  | cons c w ih =>
    intro n hw hn hle
    have hws : ∀ x ∈ w, x.isDigit = true := fun x hx => hw x (by simp [hx])
    simp only [List.cons_append, powerDigits, hw c (by simp), if_true]
    by_cases hc : 10 * n + digitValue c < 0x80000000
    · rw [if_pos hc]
      exact ih hws hc hle
    · rw [if_neg hc]
      exact ⟨w, hws, rfl⟩

theorem powerDigits_spells : ∀ {text rest : List Char} {n : Nat} {o : Option Nat}, powerDigits n text = (o, rest) →
    n < 0x80000000 → ∃ w, (∀ c ∈ w, c.isDigit = true) ∧ text = w ++ rest ∧
      match o with
      | some m => m = appendDigits n w ∧ m < 0x80000000
      | none => 0x80000000 ≤ appendDigits n w
  | [], rest, n, o, h, hn => by
    cases h
    exact ⟨[], by simp, rfl, rfl, hn⟩
  | c :: text, rest, n, o, h, hn => by
    simp only [powerDigits] at h
    split at h
    · rename_i hc
      split at h
      · rename_i hlt
        obtain ⟨w, hw, rfl, hm⟩ := powerDigits_spells h hlt
        exact ⟨c :: w, (digits_cons hc hw).2, rfl, hm⟩
      · rename_i hlt
        cases h
        exact ⟨[c], by simpa using hc, rfl, Nat.le_of_not_lt hlt⟩
    · cases h
      exact ⟨[], by simp, rfl, rfl, hn⟩

theorem digitValue_lt {c : Char} (hc : c.isDigit = true) : digitValue c < 10 := by
  simp only [Char.isDigit, Bool.and_eq_true, decide_eq_true_eq, ge_iff_le, UInt32.le_iff_toNat_le] at hc
  have h0 : '0'.toNat = 48 := rfl
  have h9 : '9'.val.toNat = 57 := rfl
  have hv : c.toNat = c.val.toNat := rfl
  unfold digitValue
  omega

theorem powerPart_spells {neg : Bool} {text rest : List Char} {p : Power} (h : powerPart neg text = .ok (p, rest)) :
    ∃ w, Digits w ∧ text = w ++ rest ∧
      ((appendDigits 0 w < 0x80000000 ∧ p = .within (if neg then -(appendDigits 0 w) else (appendDigits 0 w))) ∨
        (0x80000000 ≤ appendDigits 0 w ∧ p = .beyond neg)) := by
  cases text with
  | nil => cases h
  | cons c after =>
    simp only [powerPart] at h
    split at h
    · rename_i hc
      have hlt : 10 * 0 + digitValue c < 0x80000000 := by have := digitValue_lt hc; omega
      simp only [powerDigits, hc, if_true, if_pos hlt] at h
      split at h
      all_goals
        rename_i hp
        obtain ⟨w, hw, rfl, hm⟩ := powerDigits_spells hp hlt
        cases h
        refine ⟨c :: w, digits_cons hc hw, rfl, ?_⟩
      · obtain ⟨rfl, hm⟩ := hm
        exact .inl ⟨hm, rfl⟩
      · exact .inr ⟨hm, rfl⟩
    · cases h

theorem powerPart_read {w rest : List Char} (neg : Bool) (hw : Digits w) (hr : NoDigit rest)
    (hlt : appendDigits 0 w < 0x80000000) :
    powerPart neg (w ++ rest) = .ok (.within (if neg then -(appendDigits 0 w) else (appendDigits 0 w)), rest) := by
  have hp := powerDigits_read hr hw.2 hlt
  cases w with
  | nil => exact absurd rfl hw.1
  | cons c w =>
    rw [List.cons_append] at hp ⊢
    simp only [powerPart, hw.2 c (by simp), if_true, hp]

theorem powerPart_beyond {w : List Char} (neg : Bool) (rest : List Char) (hw : Digits w)
    (hle : 0x80000000 ≤ appendDigits 0 w) :
    ∃ v, (∀ c ∈ v, c.isDigit = true) ∧ powerPart neg (w ++ rest) = .ok (.beyond neg, v ++ rest) := by
  obtain ⟨v, hv, hp⟩ := powerDigits_beyond rest hw.2 (by decide) hle
  refine ⟨v, hv, ?_⟩
  cases w with
  | nil => exact absurd rfl hw.1
  | cons c w =>
    rw [List.cons_append] at hp ⊢
    simp only [powerPart, hw.2 c (by simp), if_true, hp]

theorem exponentPart_spells {text rest : List Char} {o : Option Power} (h : exponentPart text = .ok (o, rest)) :
    (o = none ∧ text = rest) ∨
      ∃ e : Exponent, text = e.text ++ rest ∧
        ((e.magnitude < 0x80000000 ∧ o = some (.within (if e.negative then -e.magnitude else e.magnitude))) ∨
          (0x80000000 ≤ e.magnitude ∧ o = some (.beyond e.negative))) := by
  cases text with
  | nil => cases h; exact .inl ⟨rfl, rfl⟩
  | cons c text =>
    simp only [exponentPart] at h
    split at h
    · rename_i hc
      have hmark : c = 'e' ∨ c = 'E' := by simpa using hc
      have hsign : ∃ sign : Option Bool, ∃ after, text = Exponent.signText sign ++ after ∧
          (powerPart (sign.getD false) after >>= fun p => .ok (some p.1, p.2)) = Except.ok (o, rest) := by
        split at h
        · exact ⟨some false, _, rfl, h⟩
        · exact ⟨some true, _, rfl, h⟩
        · exact ⟨none, _, rfl, h⟩
      obtain ⟨sign, after, rfl, hs⟩ := hsign
      obtain ⟨⟨p, r⟩, hp, hr⟩ := bind_eq_ok.mp hs
      cases hr
      obtain ⟨w, hw, rfl, hv⟩ := powerPart_spells hp
      refine .inr ⟨⟨c, sign, w, hmark, hw⟩, by simp [Exponent.text], ?_⟩
      rcases hv with ⟨hlt, rfl⟩ | ⟨hle, rfl⟩
      · exact .inl ⟨hlt, rfl⟩
      · exact .inr ⟨hle, rfl⟩
    · cases h
      exact .inl ⟨rfl, rfl⟩

theorem exponentPart_none {rest : List Char} (h : Boundary rest) : exponentPart rest = .ok (none, rest) := by
  cases rest with
  | nil => rfl
  | cons c rest => simp [exponentPart, (h c rfl).2.2.1, (h c rfl).2.2.2]

theorem exponentPart_text (e : Exponent) (rest : List Char) :
    exponentPart (e.text ++ rest) = (do
      let (p, rest) ← powerPart e.negative (e.digits ++ rest)
      .ok (some p, rest)) := by
  have hmark : (e.mark = 'e' || e.mark = 'E') = true := by simpa using e.mark_eq
  obtain ⟨c, w, hcw⟩ := List.exists_cons_of_ne_nil e.digits_run.1
  have hc : c.isDigit = true := e.digits_run.2 c (by simp [hcw])
  have hplus : c ≠ '+' := by rintro rfl; cases hc
  have hminus : c ≠ '-' := by rintro rfl; cases hc
  simp only [Exponent.text, List.cons_append, List.append_assoc, exponentPart, hmark, if_true, Exponent.negative]
  rcases e.sign with _ | _ | _
  · simp only [Exponent.signText, List.nil_append, hcw, List.cons_append, Option.getD_none]
    split
    · rename_i heq; exact absurd (List.cons.inj heq).1 hplus
    · rename_i heq; exact absurd (List.cons.inj heq).1 hminus
    · rfl
  · rfl
  · rfl

/-! ## Whole numbers -/

theorem toDouble_eq_ok {x : Numeral} {y : Scientific} {rest r : List Char} {n : Number} :
    toDouble x.negative y rest = .ok (n, r) ↔ x.double? y = some n ∧ rest = r := by
  unfold toDouble Numeral.double?
  cases y.toFloat? with
  | none => simp
  | some f => simp only [Except.ok.injEq, Prod.mk.injEq, Option.map_some, Option.some.injEq]

/-- What the reader makes of the parts of a numeral. -/
def finishNumber (x : Numeral) (p : Option Power) : Reader Number := fun rest =>
  match p with
  | some (.within e) => toDouble x.negative (x.decimal.shift e) rest
  | some (.beyond below) =>
    if x.decimal.significand = 0 || below then
      .ok (.float (if x.negative then -0.0 else 0.0), rest.dropWhile Char.isDigit)
    else .error (Problem.outOfRange.before rest)
  | none =>
    match x.fraction, toInteger? x.negative x.integer with
    | none, some z => .ok (.int z, rest)
    | _, _ => toDouble x.negative x.decimal rest

theorem number_parts (x : Numeral) {text r₁ r₂ r₃ : List Char} {p : Option Power}
    (h₁ : wholePart text = .ok (x.whole.map digitValue, r₁))
    (h₂ : fractionPart r₁ = .ok (x.fraction.map (·.map digitValue), r₂)) (h₃ : exponentPart r₂ = .ok (p, r₃)) :
    number x.negative text = finishNumber x p r₃ := by
  have hd : (Scientific.ofInteger (x.whole.map digitValue)).addFraction
      ((x.fraction.map (·.map digitValue)).getD []) = x.decimal := by
    unfold Numeral.decimal Numeral.integer
    cases x.fraction <;> rfl
  simp only [number, h₁, h₂, h₃, bind, Except.bind, hd, finishNumber]
  cases p with
  | none =>
    rw [show x.integer = Scientific.ofInteger (x.whole.map digitValue) from rfl]
    cases x.fraction <;> cases toInteger? x.negative (Scientific.ofInteger (x.whole.map digitValue)) <;> rfl
  | some p => cases p <;> rfl

theorem finishNumber_none {x : Numeral} (hx : x.exponent = none) {rest r : List Char} {n : Number} :
    finishNumber x none rest = .ok (n, r) ↔ x.value? = some n ∧ rest = r := by
  simp only [finishNumber, Numeral.value?, hx]
  cases x.fraction with
  | some f => exact toDouble_eq_ok
  | none =>
    cases toInteger? x.negative x.integer with
    | none => exact toDouble_eq_ok
    | some z => simp only [Except.ok.injEq, Prod.mk.injEq, Option.some.injEq]

theorem finishNumber_within {x : Numeral} {e : Exponent} (hx : x.exponent = some e) (he : e.magnitude < 0x80000000)
    {rest r : List Char} {n : Number} :
    finishNumber x (some (.within (if e.negative then -e.magnitude else e.magnitude))) rest = .ok (n, r) ↔
      x.value? = some n ∧ rest = r := by
  simp only [finishNumber, Numeral.value?, hx, if_pos he]
  exact toDouble_eq_ok

theorem finishNumber_beyond {x : Numeral} {e : Exponent} (hx : x.exponent = some e)
    (he : 0x80000000 ≤ e.magnitude) {rest r : List Char} {n : Number} :
    finishNumber x (some (.beyond e.negative)) rest = .ok (n, r) ↔
      x.value? = some n ∧ rest.dropWhile Char.isDigit = r := by
  simp only [finishNumber, Numeral.value?, hx, if_neg (Nat.not_lt.mpr he)]
  split
  · simp
  · simp

theorem number_spells {neg : Bool} {text rest : List Char} {n : Number} (h : number neg text = .ok (n, rest)) :
    ∃ x : Numeral, x.negative = neg ∧ x.value? = some n ∧ text = x.body ++ rest := by
  obtain ⟨⟨ds, r₁⟩, h₁, h₁'⟩ := bind_eq_ok.mp h
  obtain ⟨⟨fs, r₂⟩, h₂, h₂'⟩ := bind_eq_ok.mp h₁'
  obtain ⟨⟨p, r₃⟩, h₃, -⟩ := bind_eq_ok.mp h₂'
  obtain ⟨w, hw, hz, rfl, rfl⟩ := wholePart_spells h₁
  obtain ⟨f, hf, rfl, rfl⟩ := fractionPart_spells h₂
  rcases exponentPart_spells h₃ with ⟨rfl, rfl⟩ | ⟨e, rfl, ⟨hlt, rfl⟩ | ⟨hle, rfl⟩⟩
  · let x : Numeral := ⟨neg, w, f, none, hw, hz, hf⟩
    rw [number_parts x h₁ h₂ h₃] at h
    obtain ⟨hv, rfl⟩ := (finishNumber_none rfl).mp h
    exact ⟨x, rfl, hv, by simp [x, Numeral.body]⟩
  · let x : Numeral := ⟨neg, w, f, some e, hw, hz, hf⟩
    rw [number_parts x h₁ h₂ h₃] at h
    obtain ⟨hv, rfl⟩ := (finishNumber_within rfl hlt).mp h
    exact ⟨x, rfl, hv, by simp [x, Numeral.body]⟩
  · -- the digits that the reader skips belong to the exponent as well
    obtain ⟨v, r, hv, hr, rfl⟩ := exists_digits r₃
    have hrun : Digits (e.digits ++ v) :=
      ⟨by simp [e.digits_run.1], fun c hc => (List.mem_append.mp hc).elim (e.digits_run.2 c) (hv c)⟩
    let e' : Exponent := ⟨e.mark, e.sign, e.digits ++ v, e.mark_eq, hrun⟩
    have hle' : 0x80000000 ≤ e'.magnitude := by
      have : e'.magnitude = appendDigits e.magnitude v := appendDigits_append 0 e.digits v
      rw [this]
      exact Nat.le_trans hle (le_appendDigits v _)
    let x : Numeral := ⟨neg, w, f, some e', hw, hz, hf⟩
    rw [number_parts x h₁ h₂ h₃, show e.negative = e'.negative from rfl] at h
    obtain ⟨hx, rfl⟩ := (finishNumber_beyond rfl hle').mp h
    refine ⟨x, rfl, hx, ?_⟩
    rw [dropWhile_digits hv hr]
    simp [x, e', Numeral.body, Exponent.text]

theorem noDigit_exponent (o : Option Exponent) {rest : List Char} (hr : Boundary rest) :
    NoDigit (o.elim [] Exponent.text ++ rest) ∧ (o.elim [] Exponent.text ++ rest).head? ≠ some '.' := by
  cases o with
  | none => exact ⟨hr.noDigit, fun h => (hr '.' h).2.1 rfl⟩
  | some e =>
    have hm : e.mark.isDigit = false ∧ e.mark ≠ '.' := by
      rcases e.mark_eq with h | h <;> rw [h] <;> decide
    refine ⟨fun c hc => ?_, fun h => hm.2 (Option.some.inj h)⟩
    cases hc
    exact hm.1

theorem noDigit_fraction (o : Option (List Char)) {rest : List Char} (hr : NoDigit rest) :
    NoDigit (o.elim [] ('.' :: ·) ++ rest) := by
  cases o with
  | none => exact hr
  | some w =>
    intro c hc
    cases hc
    rfl

theorem number_read {x : Numeral} {n : Number} (hv : x.value? = some n) {rest : List Char} (hr : Boundary rest) :
    number x.negative (x.body ++ rest) = .ok (n, rest) := by
  obtain ⟨he, hp⟩ := noDigit_exponent x.exponent hr
  have h₁ : wholePart (x.body ++ rest) = .ok (x.whole.map digitValue,
      x.fraction.elim [] ('.' :: ·) ++ (x.exponent.elim [] Exponent.text ++ rest)) := by
    rw [Numeral.body, List.append_assoc, List.append_assoc]
    exact wholePart_read x.whole_run x.whole_zero (noDigit_fraction _ he)
  have h₂ := fractionPart_read x.fraction_run he hp
  cases hx : x.exponent with
  | none =>
    rw [hx] at h₁ h₂
    rw [number_parts x h₁ h₂ (exponentPart_none hr)]
    exact (finishNumber_none hx).mpr ⟨hv, rfl⟩
  | some e =>
    rw [hx] at h₁ h₂
    by_cases hlt : e.magnitude < 0x80000000
    · have h₃ : exponentPart (e.text ++ rest) =
          .ok (some (.within (if e.negative then -e.magnitude else e.magnitude)), rest) := by
        rw [exponentPart_text, powerPart_read e.negative e.digits_run hr.noDigit hlt]
        rfl
      rw [number_parts x h₁ h₂ h₃]
      exact (finishNumber_within hx hlt).mpr ⟨hv, rfl⟩
    · have hle := Nat.le_of_not_lt hlt
      obtain ⟨v, hd, hb⟩ := powerPart_beyond e.negative rest e.digits_run hle
      have h₃ : exponentPart (e.text ++ rest) = .ok (some (.beyond e.negative), v ++ rest) := by
        rw [exponentPart_text, hb]
        rfl
      rw [number_parts x h₁ h₂ h₃]
      exact (finishNumber_beyond hx hle).mpr ⟨hv, dropWhile_digits hd hr.noDigit⟩

end SharpTree.Source
