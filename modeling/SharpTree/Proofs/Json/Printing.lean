import SharpTree.Proofs.Json.Canonical
import SharpTree.Proofs.Source.Number

/-!
# Printed values

What the printer writes for a value spells the value, in any style that puts
nothing but blanks between the tokens. Of the numbers this is shown for the
integers: a double is written with the fewest digits that identify it, and
reading it may give a neighbour.
-/

namespace SharpTree.Json

open Source (blanks_nil digitValue appendDigits hexDigit? hexNumber? isHighSurrogate isLowSurrogate toInteger?)

/-! ## Strings -/

theorem hexDigit?_digitChar : ∀ d < 16, hexDigit? (Nat.digitChar d) = some d := by
  decide

theorem hexNumber?_control {n : Nat} (h : n < 0x20) :
    hexNumber? '0' '0' (Nat.digitChar (n / 16)) (Nat.digitChar (n % 16)) = some n := by
  have h₀ : hexDigit? '0' = some 0 := rfl
  have h₁ := hexDigit?_digitChar (n / 16) (by omega)
  have h₂ := hexDigit?_digitChar (n % 16) (by omega)
  simp only [hexNumber?, h₀, h₁, h₂, Option.bind_eq_bind, Option.bind_some, Option.some.injEq]
  omega

theorem spellsChar_escape (c : Char) : SpellsChar c (escape c) := by
  unfold escape
  iterate 7
    split
    · rename_i h
      subst h
      exact .letter rfl
  split
  · rename_i hc
    have hn := hexNumber?_control hc
    have hlow : isLowSurrogate c.toNat = false := by simp [isLowSurrogate]; omega
    have hhigh : isHighSurrogate c.toNat = false := by simp [isHighSurrogate]; omega
    have := SpellsChar.unit hn hlow hhigh
    rwa [Char.ofNat_toNat] at this
  · rename_i hq hs _ _ _ _ _ hc
    exact .plain hq hs (Nat.le_of_not_lt hc)

theorem spellsChars_flatMap : ∀ cs : List Char, SpellsChars cs (cs.flatMap escape)
  | [] => .nil
  | c :: cs => .cons (spellsChar_escape c) (spellsChars_flatMap cs)

theorem spellsString_quote (s : String) : SpellsString s (quote s) :=
  ⟨_, spellsChars_flatMap s.toList, rfl⟩

/-! ## Numbers -/

/-- The integers of a text fit into a signed or an unsigned word. -/
def Number.Fits : Number → Prop
  | .int z => -0x8000000000000000 ≤ z ∧ z < 0x10000000000000000
  | .float _ => True

theorem absorb_digits : ∀ {w : List Char} {s : Nat}, appendDigits s w < Scientific.limit →
    Scientific.absorb s (w.map digitValue) = (appendDigits s w, [])
  | [], _, _ => rfl
  | c :: w, s, h => by
    have hs : 10 * s + digitValue c < Scientific.limit := Nat.lt_of_le_of_lt (Source.le_appendDigits w _) h
    rw [List.map_cons, Scientific.absorb, if_pos hs]
    exact absorb_digits h

theorem absorb_lt : ∀ {ds : List Nat} {s : Nat}, s < Scientific.limit →
    (Scientific.absorb s ds).1 < Scientific.limit
  | [], _, h => h
  | d :: ds, s, h => by
    unfold Scientific.absorb
    split
    · rename_i hs
      exact absorb_lt hs
    · exact h

theorem fits_toInteger? {neg : Bool} {ds : List Nat} {z : Int} (h : toInteger? neg (.ofInteger ds) = some z) :
    (Number.int z).Fits := by
  have hlt : (Scientific.ofInteger ds).significand < 0x10000000000000000 := absorb_lt (by decide)
  unfold toInteger? at h
  split at h
  · cases h
  split at h
  · cases h
    simp only [Number.Fits]
    omega
  split at h
  · rename_i hs
    simp only [Bool.and_eq_true, decide_eq_true_eq] at hs
    cases h
    simp only [Number.Fits]
    omega
  · cases h

theorem fits_of_spells {n : Number} {w : List Char} (h : SpellsNumber n w) : n.Fits := by
  cases n with
  | float x => trivial
  | int z =>
    obtain ⟨x, hx, -⟩ := h
    unfold Numeral.value? Numeral.double? at hx
    split at hx
    · split at hx
      · rename_i hz
        cases hx
        exact fits_toInteger? hz
      · obtain ⟨_, _, h⟩ := Option.map_eq_some_iff.mp hx
        cases h
    · split at hx
      · obtain ⟨_, _, h⟩ := Option.map_eq_some_iff.mp hx
        cases h
      · split at hx <;> cases hx

theorem toDigits_head (n : Nat) : (Nat.toDigits 10 n).head? = some '0' → n = 0 := by
  induction n using Nat.strongRecOn with
  | _ n ih =>
    intro h
    by_cases hn : n < 10
    · rw [Nat.toDigits_of_lt_base hn] at h
      have : ∀ m < 10, [Nat.digitChar m].head? = some '0' → m = 0 := by decide
      exact this n hn h
    · -- the first digit is that of the tenth part, which is not zero
      obtain ⟨c, ds, hc⟩ := List.exists_cons_of_ne_nil (Nat.toDigits_ne_nil (n := n / 10) (b := 10))
      rw [Nat.toDigits_of_base_le (by decide) (by omega), hc] at h
      have := ih (n / 10) (by omega) (by rw [hc]; exact h)
      omega

def Numeral.ofInt (z : Int) : Numeral where
  negative := z < 0
  whole := Nat.toDigits 10 z.natAbs
  fraction := none
  exponent := none
  whole_run := ⟨Nat.toDigits_ne_nil, fun _ hc => Nat.isDigit_of_mem_toDigits (by decide) (by decide) hc⟩
  whole_zero := fun h => by rw [toDigits_head _ h]; rfl
  fraction_run := fun _ h => by cases h

theorem ofInteger_toDigits {n : Nat} (h : n < Scientific.limit) :
    Scientific.ofInteger ((Nat.toDigits 10 n).map digitValue) = ⟨n, 0⟩ := by
  have hn : appendDigits 0 (Nat.toDigits 10 n) = n := Nat.ofDigitChars_ten_toDigits
  have ha := absorb_digits (hn.symm ▸ h : appendDigits 0 (Nat.toDigits 10 n) < _)
  rw [hn] at ha
  rw [Scientific.ofInteger, ha]
  rfl

theorem toInteger?_positive (n : Nat) : toInteger? false ⟨n, 0⟩ = some (n : Int) := by
  simp [toInteger?]

theorem toInteger?_negative {n : Nat} (h : n ≠ 0 ∧ n ≤ 0x8000000000000000) :
    toInteger? true ⟨n, 0⟩ = some (-(n : Int)) := by
  simp [toInteger?, h]

theorem spellsNumber_text {z : Int} (h : (Number.int z).Fits) : SpellsNumber (.int z) (Number.int z).text := by
  refine ⟨.ofInt z, ?_, ?_⟩
  · have hlt : z.natAbs < 0x10000000000000000 := by simp only [Number.Fits] at h; omega
    have hz : toInteger? (decide (z < 0)) (Numeral.ofInt z).integer = some z := by
      rw [Numeral.integer, Numeral.ofInt, ofInteger_toDigits hlt]
      simp only [Number.Fits] at h
      by_cases hneg : z < 0
      · have hle : z.natAbs ≠ 0 ∧ z.natAbs ≤ 0x8000000000000000 := by omega
        have habs : -(z.natAbs : Int) = z := by omega
        rw [decide_eq_true hneg, toInteger?_negative hle, habs]
      · have habs : (z.natAbs : Int) = z := by omega
        rw [decide_eq_false hneg, toInteger?_positive, habs]
    simp only [Numeral.value?, Numeral.ofInt] at hz ⊢
    rw [hz]
  · simp [Number.text, Numeral.text, Numeral.body, Numeral.ofInt]

/-! ## Values -/

/-- A style that puts nothing but blanks between tokens. -/
def Style.Blank (style : Style) : Prop :=
  (∀ level, Blanks (style.gap level)) ∧ Blanks style.space

theorem blank_compact : Style.compact.Blank :=
  ⟨fun _ => blanks_nil, blanks_nil⟩

theorem blank_indented : Style.indented.Blank := by
  refine ⟨fun level c hc => ?_, fun c hc => ?_⟩
  · rcases List.mem_cons.mp hc with rfl | hc
    · rfl
    · rw [List.eq_of_mem_replicate hc]
      rfl
  · rw [List.mem_singleton.mp hc]
    rfl

namespace Value

section

variable {style : Style} (hs : style.Blank)

include hs

theorem lead_gap (level : Nat) : Lead false (',' :: style.gap level) :=
  ⟨[], style.gap level, blanks_nil, hs.1 level, rfl⟩

mutual
theorem print_spells {g : Number → Number} :
    ∀ (v : Value) (level : Nat), (∀ x ∈ v.numbers, SpellsNumber (g x) x.text) →
    (v.mapNumbers g).Spells (v.print style level)
  | .null, _, _ => rfl
  | .bool true, _, _ => rfl
  | .bool false, _, _ => rfl
  | .num n, _, h => h n (by simp [numbers])
  | .str s, _, _ => spellsString_quote s
  | .arr [], _, _ => ⟨[']'], ⟨[], blanks_nil, rfl⟩, rfl⟩
  | .arr (v :: vs), level, h => by
    have hv := print_spells v (level + 1) fun x hx => h x (List.mem_append_left _ hx)
    have hvs := printItems_spells vs level fun x hx => h x (List.mem_append_right _ hx)
    exact ⟨_, ⟨_, _, _, hs.1 (level + 1), hv, hvs, rfl⟩, rfl⟩
  | .obj [], _, _ => ⟨['}'], ⟨[], blanks_nil, rfl⟩, rfl⟩
  | .obj ((k, v) :: ms), level, h => by
    have hv := print_spells v (level + 1) fun x hx => h x (List.mem_append_left _ hx)
    have hms := printMembers_spells ms level fun x hx => h x (List.mem_append_right _ hx)
    exact ⟨_, ⟨_, _, [], _, _, _, hs.1 (level + 1), spellsString_quote k, blanks_nil, hs.2, hv, hms, rfl⟩, rfl⟩
theorem printItems_spells {g : Number → Number} : ∀ (vs : List Value) (level : Nat),
    (∀ x ∈ numbersItems vs, SpellsNumber (g x) x.text) →
    SpellsItems false (mapNumbersItems g vs) (printItems style level vs)
  | [], level, _ => ⟨style.gap level, hs.1 level, rfl⟩
  | v :: vs, level, h => by
    have hv := print_spells v (level + 1) fun x hx => h x (List.mem_append_left _ hx)
    have hvs := printItems_spells vs level fun x hx => h x (List.mem_append_right _ hx)
    exact ⟨_, _, _, lead_gap hs (level + 1), hv, hvs, rfl⟩
theorem printMembers_spells {g : Number → Number} : ∀ (ms : List (String × Value)) (level : Nat),
    (∀ x ∈ numbersMembers ms, SpellsNumber (g x) x.text) →
    SpellsMembers false (mapNumbersMembers g ms) (printMembers style level ms)
  | [], level, _ => ⟨style.gap level, hs.1 level, rfl⟩
  | (k, v) :: ms, level, h => by
    have hv := print_spells v (level + 1) fun x hx => h x (List.mem_append_left _ hx)
    have hms := printMembers_spells ms level fun x hx => h x (List.mem_append_right _ hx)
    exact ⟨_, _, [], _, _, _, lead_gap hs (level + 1), spellsString_quote k, blanks_nil, hs.2, hv, hms, rfl⟩
end

end

/-- The printed texts of a value hold the value with its numbers as their own texts are read. -/
theorem document_print_map {style : Style} (hs : style.Blank) {v : Value} {g : Number → Number}
    (h : ∀ x ∈ v.numbers, SpellsNumber (g x) x.text) : (v.mapNumbers g).Document (v.print style 0) :=
  ⟨[], _, [], blanks_nil, print_spells hs v 0 h, blanks_nil, by simp⟩

theorem document_print {style : Style} (hs : style.Blank) {v : Value} (h : ∀ x ∈ v.numbers, SpellsNumber x x.text) :
    v.Document (v.print style 0) := by
  have hid := document_print_map (g := id) hs h
  rwa [mapNumbers_id] at hid

theorem document_compact {v : Value} (h : ∀ x ∈ v.numbers, SpellsNumber x x.text) :
    v.Document v.compact.toList := by
  rw [compact, String.toList_ofList]
  exact document_print blank_compact h

theorem document_pretty {v : Value} (h : ∀ x ∈ v.numbers, SpellsNumber x x.text) : v.Document v.pretty.toList := by
  rw [pretty, String.toList_ofList]
  exact document_print blank_indented h

mutual
theorem spelled_numbers : ∀ {v : Value} {w : List Char}, v.Spells w → ∀ x ∈ v.numbers, ∃ u, SpellsNumber x u
  | .null, _, _, x, hx | .bool _, _, _, x, hx | .str _, _, _, x, hx => by cases hx
  | .num n, w, h, x, hx => by
    rw [List.mem_singleton.mp hx]
    exact ⟨w, h⟩
  | .arr vs, _, h, x, hx => by
    obtain ⟨body, hb, -⟩ := h
    exact spelled_numbersItems hb x hx
  | .obj ms, _, h, x, hx => by
    obtain ⟨body, hb, -⟩ := h
    exact spelled_numbersMembers hb x hx
theorem spelled_numbersItems : ∀ {vs : List Value} {first : Bool} {w : List Char}, SpellsItems first vs w →
    ∀ x ∈ numbersItems vs, ∃ u, SpellsNumber x u
  | [], _, _, _, x, hx => by cases hx
  | v :: vs, _, _, h, x, hx => by
    obtain ⟨_, _, _, _, hv, hvs, _⟩ := h
    rcases List.mem_append.mp hx with hx | hx
    · exact spelled_numbers hv x hx
    · exact spelled_numbersItems hvs x hx
theorem spelled_numbersMembers : ∀ {ms : List (String × Value)} {first : Bool} {w : List Char},
    SpellsMembers first ms w → ∀ x ∈ numbersMembers ms, ∃ u, SpellsNumber x u
  | [], _, _, _, x, hx => by cases hx
  | (k, v) :: ms, _, _, h, x, hx => by
    obtain ⟨_, _, _, _, _, _, _, _, _, _, hv, hms, _⟩ := h
    rcases List.mem_append.mp hx with hx | hx
    · exact spelled_numbers hv x hx
    · exact spelled_numbersMembers hms x hx
end

theorem fits_numbers {v : Value} {w : List Char} (h : v.Spells w) : ∀ x ∈ v.numbers, x.Fits := by
  intro x hx
  obtain ⟨u, hu⟩ := spelled_numbers h x hx
  exact fits_of_spells hu

end Value

end SharpTree.Json
