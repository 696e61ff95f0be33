import SharpTree.Proofs.Json.Grammar
import SharpTree.Proofs.Source.Tree

/-!
# Places of faults

A reader that refuses its text says so by a cause and the number of bytes that
follow the place. `Shows text cause i` says, without a reader, that the cause can
be seen in the text right after its first `i` bytes: at the end, or after the
first byte of a character that the cause is about. Every reader leaves an end of
its text, or refuses it at such a place (`root_stays`, `finish_eq_error`).
-/

namespace SharpTree

open Json (Digits)
open Json.Grammar (HexDigit)

/-! ## Bytes -/

theorem byteCount_append (a b : List Char) : byteCount (a ++ b) = byteCount a + byteCount b := by
  induction a with
  | nil => simp [byteCount]
  | cons c a ih => simp only [List.cons_append, byteCount, ih, Nat.add_assoc]

theorem length_utf8 (cs : List Char) : (utf8 cs).length = byteCount cs := by
  induction cs with
  | nil => rfl
  | cons c cs ih => simpa [utf8, byteCount] using ih

theorem utf8Size_of_ascii {c : Char} (h : c.toNat < 128) : c.utf8Size = 1 := by
  rw [Char.utf8Size_eq_one_iff, UInt32.le_iff_toNat_le]
  exact Nat.le_of_lt_succ h

namespace Source

/-! ## What a fault blames -/

def AtEnd : Problem → Prop
  | .valueEnds | .listEnds | .objectEnds | .stringEnds => True
  | _ => False

def Refuses : Problem → Char → Prop
  | .valueEnds, _ | .listEnds, _ | .objectEnds, _ | .stringEnds, _ => False
  | .noValue, c => c ∉ ['n', 't', 'f', '"', '-'] ∧ c.isDigit = false
  | .noListEnd, c => isBlank c = false ∧ c ≠ ',' ∧ c ≠ ']'
  | .noObjectEnd, c => isBlank c = false ∧ c ≠ ',' ∧ c ≠ '}'
  | .noColon, c => isBlank c = false ∧ c ≠ ':'
  | .noKey, c => isBlank c = false ∧ c ≠ '"' ∧ c ≠ '}'
  | .trailingComma, c => c = ']' ∨ c = '}'
  | .trailingCharacters, c => isBlank c = false
  | .controlCharacter, c => c.toNat < 0x20
  | .badEscape, c => plainEscape? c = none ∧ c ≠ 'u'
  | .loneSurrogate, c => HexDigit c
  | .outOfRange, c => c.isDigit = true
  | .noWord, _ | .endOfEscape, _ | .badNumber, _ => True

/-- The characters that may be to blame for a fault. -/
def Blames : Cause → Char → Prop
  | .grammar p, c => Refuses p c
  | .tooDeep, c => c = '[' ∨ c = '{'
  | .mismatch _, _ => False

/-- A cause shows at a place of a text, given by the number of bytes before it: at the end, right after the first
byte of a character to blame, or after the four bytes that should have been the digits of an escape. -/
inductive Shows (text : List Char) : Cause → Nat → Prop where
  | ending {p : Problem} (h : AtEnd p) : Shows text (.grammar p) (byteCount text)
  | character {cause : Cause} {before after : List Char} {c : Char} (split : text = before ++ c :: after)
    (blamed : Blames cause c) : Shows text cause (byteCount before + 1)
  | escape {before after : List Char} (split : text = before ++ 'u' :: after) (long : 4 ≤ byteCount after) :
    Shows text (.grammar .badEscape) (byteCount before + 5)
  | between {m : Mismatch} {before after : List Char} (split : text = before ++ after) :
    Shows text (.mismatch m) (byteCount before)

theorem Shows.le {text : List Char} {cause : Cause} {i : Nat} (h : Shows text cause i) : i ≤ byteCount text := by
  cases h with
  | ending => exact Nat.le_refl _
  | @character _ before after c split =>
    have hpos := c.utf8Size_pos
    rw [split, byteCount_append, byteCount]
    omega
  | escape split long =>
    have hu : ('u').utf8Size = 1 := rfl
    rw [split, byteCount_append, byteCount]
    omega
  | between split =>
    rw [split, byteCount_append]
    omega

theorem Shows.prepend {text : List Char} {cause : Cause} {i : Nat} (h : Shows text cause i) (front : List Char) :
    Shows (front ++ text) cause (byteCount front + i) := by
  cases h with
  | ending h =>
    rw [← byteCount_append]
    exact .ending h
  | character split blamed =>
    rw [split, ← Nat.add_assoc, ← byteCount_append, ← List.append_assoc]
    exact .character rfl blamed
  | escape split long =>
    rw [split, ← Nat.add_assoc, ← byteCount_append, ← List.append_assoc]
    exact .escape rfl long
  | between split =>
    rw [split, ← byteCount_append, ← List.append_assoc]
    exact .between rfl

def Located (text : List Char) (f : Fault) : Prop :=
  ∃ i, Shows text f.cause i ∧ i + f.left = byteCount text

section

variable {text rest : List Char} {p : Problem} {cause : Cause} {c : Char}

theorem Located.mono {f : Fault} (h : Located rest f) (hs : rest <:+ text) : Located text f := by
  obtain ⟨front, rfl⟩ := hs
  obtain ⟨i, hi, hleft⟩ := h
  refine ⟨_, hi.prepend front, ?_⟩
  rw [byteCount_append, Nat.add_assoc, hleft]

theorem located_ending (h : AtEnd p) : Located text ⟨.grammar p, 0⟩ :=
  ⟨_, .ending h, rfl⟩

theorem located_past (h : Refuses p c) (hs : c :: rest <:+ text) : Located text (p.past (c :: rest)) := by
  refine Located.mono ⟨1, .character (List.nil_append _).symm h, ?_⟩ hs
  have hpos := c.utf8Size_pos
  simp only [Problem.past, byteCount]
  omega

theorem located_before (h : Blames cause c) (hc : c.toNat < 128) (hs : c :: rest <:+ text) :
    Located text (cause.before rest) := by
  refine Located.mono ⟨1, .character (List.nil_append _).symm h, ?_⟩ hs
  simp only [Cause.before, byteCount, utf8Size_of_ascii hc]

theorem located_mismatch {m : Mismatch} (hs : rest <:+ text) : Located text (m.before rest) :=
  Located.mono ⟨0, .between (List.nil_append _).symm, Nat.zero_add _⟩ hs

end

/-! ## Readers -/

/-- What a reader does at a text: it leaves an end of it, or refuses it at a place inside it. -/
def Stays {α : Type} (text : List Char) : Except Fault (α × List Char) → Prop
  | .ok p => p.2 <:+ text
  | .error f => Located text f

section

variable {α β : Type} {text rest : List Char} {x : Except Fault (α × List Char)}
  {g : α × List Char → Except Fault (β × List Char)}

theorem Stays.mono (h : Stays rest x) (hs : rest <:+ text) : Stays text x := by
  cases x with
  | ok p => exact List.IsSuffix.trans h hs
  | error f => exact Located.mono h hs

theorem Stays.bind (h : Stays text x)
    (hg : ∀ a rest, x = .ok (a, rest) → rest <:+ text → Stays text (g (a, rest))) : Stays text (x >>= g) := by
  cases x with
  | ok p => exact hg p.1 p.2 rfl h
  | error f => exact h

theorem Stays.next (h : Stays text x) (hg : ∀ a rest, Stays rest (g (a, rest))) : Stays text (x >>= g) :=
  h.bind fun a rest _ hs => (hg a rest).mono hs

end

theorem skipBlanks_cases (text : List Char) : skipBlanks text = [] ∨
    ∃ c after, skipBlanks text = c :: after ∧ isBlank c = false ∧ c :: after <:+ text := by
  have hs : skipBlanks text <:+ text := List.dropWhile_suffix isBlank
  cases h : skipBlanks text with
  | nil => exact .inl rfl
  | cons c after =>
    rw [h] at hs
    have hc : isBlank c = false := by
      have hhead := List.head?_dropWhile_not isBlank text
      unfold skipBlanks at h
      rw [h] at hhead
      simpa using hhead
    exact .inr ⟨c, after, rfl, hc, hs⟩

/-! ## Strings -/

theorem toNat_of_hexDigit {c : Char} (h : HexDigit c) : c.toNat < 128 := by
  obtain ⟨n, hn⟩ := Json.Grammar.hexDigit_iff.mp h
  exact Json.Grammar.forall_hexDigit? (P := fun c _ => c.toNat < 128) (by decide) hn

theorem located_noHexNumber (rest : List Char) : Located ('u' :: rest) (noHexNumber rest) := by
  unfold noHexNumber
  by_cases hlong : byteCount rest < 4
  · rw [if_pos hlong]
    exact located_ending trivial
  · rw [if_neg hlong]
    refine ⟨5, .escape (List.nil_append _).symm (Nat.not_lt.mp hlong), ?_⟩
    have hu : ('u').utf8Size = 1 := rfl
    simp only [byteCount, hu]
    omega

theorem hexNumber_stays (text : List Char) : Stays ('u' :: text) (hexNumber text) := by
  unfold hexNumber
  split
  · rename_i a b c d after
    split
    · exact ⟨['u', a, b, c, d], rfl⟩
    · exact located_noHexNumber _
  · exact located_noHexNumber _

theorem escapePart_stays (c : Char) (text : List Char) : Stays text (escapePart c text) := by
  cases text with
  | nil => exact located_ending trivial
  | cons x after =>
    simp only [escapePart]
    by_cases hx : x = c
    · rw [if_pos hx]
      exact List.suffix_cons x after
    · rw [if_neg hx]
      exact located_past trivial List.suffix_rfl

theorem located_loneSurrogate {text rest : List Char} {n : Nat} (h : hexNumber text = .ok (n, rest)) :
    Located text (Problem.loneSurrogate.before rest) := by
  obtain ⟨a, b, c, d, hn, rfl⟩ := hexNumber_eq_ok.mp h
  have hd : HexDigit d := (Json.Grammar.hexNumber?_digits hn).1 d (by simp)
  exact located_before hd (toNat_of_hexDigit hd) ⟨[a, b, c], rfl⟩

theorem unitEscape_stays (text : List Char) : Stays ('u' :: text) (unitEscape text) := by
  unfold unitEscape
  refine (hexNumber_stays text).bind fun n r₁ h₁ hs₁ => ?_
  have hlone := (located_loneSurrogate h₁).mono (List.suffix_cons 'u' text)
  simp only
  by_cases hlow : isLowSurrogate n = true
  · rw [if_pos hlow]
    exact hlone
  · rw [if_neg hlow]
    by_cases hhigh : isHighSurrogate n = true
    · rw [if_pos hhigh]
      refine Stays.mono ?_ hs₁
      refine (escapePart_stays '\\' r₁).bind fun _ r₂ _ hs₂ => Stays.mono ?_ hs₂
      -- the letter of the second escape is needed to say where its digits are missing
      refine (escapePart_stays 'u' r₂).bind fun _ r₃ h₃ _ => ?_
      obtain rfl := escapePart_eq_ok.mp h₃
      refine (hexNumber_stays r₃).bind fun low r₄ h₄ hs₄ => ?_
      simp only
      by_cases hpair : isLowSurrogate low = true
      · rw [if_pos hpair]
        exact hs₄
      · rw [if_neg hpair]
        exact (located_loneSurrogate h₄).mono (List.suffix_cons 'u' r₃)
    · rw [if_neg hhigh]
      exact hs₁

theorem escape_stays (text : List Char) : Stays text (escape text) := by
  cases text with
  | nil => exact located_ending trivial
  | cons c after =>
    simp only [escape]
    cases hc : plainEscape? c with
    | some x => exact List.suffix_cons c after
    | none =>
      simp only
      by_cases hu : c = 'u'
      · rw [if_pos hu, hu]
        exact unitEscape_stays after
      · rw [if_neg hu]
        exact located_past ⟨hc, hu⟩ List.suffix_rfl

theorem chars_stays (bound text : List Char) : Stays text (chars bound text) := by
  induction bound generalizing text with
  | nil => exact located_ending trivial
  | cons x bound ih =>
    cases text with
    | nil => exact located_ending trivial
    | cons c rest =>
      have hs := List.suffix_cons c rest
      unfold chars
      by_cases hquote : c = '"'
      · rw [if_pos hquote]
        exact hs
      · rw [if_neg hquote]
        by_cases hslash : c = '\\'
        · rw [if_pos hslash]
          refine Stays.mono ((escape_stays rest).next fun _ r => ?_) hs
          exact (ih r).bind fun _ _ _ hs => hs
        · rw [if_neg hslash]
          by_cases hcontrol : c.toNat < 0x20
          · rw [if_pos hcontrol]
            exact located_before hcontrol (Nat.lt_trans hcontrol (by decide)) List.suffix_rfl
          · rw [if_neg hcontrol]
            refine Stays.mono ?_ hs
            exact (ih rest).bind fun _ _ _ hs => hs

theorem string_stays (text : List Char) : Stays text (string text) :=
  (chars_stays text text).bind fun _ _ _ hs => hs

/-! ## Numbers -/

def AfterDigit (text rest : List Char) : Prop :=
  ∃ before d, d.isDigit = true ∧ text = before ++ d :: rest

theorem AfterDigit.suffix {text rest : List Char} (h : AfterDigit text rest) : rest <:+ text := by
  obtain ⟨before, d, -, rfl⟩ := h
  exact ⟨before ++ [d], by simp⟩

theorem AfterDigit.prepend {text rest : List Char} (h : AfterDigit text rest) (front : List Char) :
    AfterDigit (front ++ text) rest := by
  obtain ⟨before, d, hd, rfl⟩ := h
  exact ⟨front ++ before, d, hd, (List.append_assoc ..).symm⟩

theorem afterDigit_append {w : List Char} (hw : Digits w) (rest : List Char) : AfterDigit (w ++ rest) rest := by
  obtain ⟨hne, hw⟩ := hw
  refine ⟨w.dropLast, w.getLast hne, hw _ (List.getLast_mem hne), ?_⟩
  rw [← List.singleton_append, ← List.append_assoc, List.dropLast_concat_getLast]

theorem AfterDigit.skip {text r₁ r₂ : List Char} (h : AfterDigit text r₁) (hn : r₁ = r₂ ∨ AfterDigit r₁ r₂) :
    AfterDigit text r₂ := by
  rcases hn with rfl | hn
  · exact h
  · obtain ⟨front, rfl⟩ := h.suffix
    exact hn.prepend front

theorem wholePart_after {text rest : List Char} {ds : List Nat} (h : wholePart text = .ok (ds, rest)) :
    AfterDigit text rest := by
  obtain ⟨w, hw, -, -, rfl⟩ := wholePart_spells h
  exact afterDigit_append hw rest

theorem fractionPart_after {text rest : List Char} {o : Option (List Nat)} (h : fractionPart text = .ok (o, rest)) :
    text = rest ∨ AfterDigit text rest := by
  obtain ⟨f, hf, -, rfl⟩ := fractionPart_spells h
  cases f with
  | none => exact .inl rfl
  | some w => exact .inr ((afterDigit_append (hf w rfl) rest).prepend ['.'])

theorem powerPart_after {negative : Bool} {text rest : List Char} {p : Power}
    (h : powerPart negative text = .ok (p, rest)) : AfterDigit text rest := by
  obtain ⟨w, hw, rfl, -⟩ := powerPart_spells h
  exact afterDigit_append hw rest

theorem exponentPart_after {text rest : List Char} {o : Option Power} (h : exponentPart text = .ok (o, rest)) :
    text = rest ∨ AfterDigit text rest := by
  rcases exponentPart_spells h with ⟨-, h⟩ | ⟨e, rfl, -⟩
  · exact .inl h
  · right
    have he := (afterDigit_append e.digits_run rest).prepend (e.mark :: Json.Exponent.signText e.sign)
    rwa [← List.append_assoc] at he

theorem wholePart_stays (text : List Char) : Stays text (wholePart text) := by
  cases h : wholePart text with
  | ok p => exact (wholePart_after h).suffix
  | error f =>
    cases text with
    | nil =>
      cases h
      exact located_ending trivial
    | cons c after =>
      simp only [wholePart] at h
      split at h
      · split at h
        · rename_i hzero
          cases h
          cases after with
          | nil => simp at hzero
          | cons d after => exact located_past trivial (List.suffix_cons c _)
        · cases h
      · cases h
        exact located_past trivial List.suffix_rfl

theorem fractionPart_stays (text : List Char) : Stays text (fractionPart text) := by
  cases h : fractionPart text with
  | ok p =>
    rcases fractionPart_after h with rfl | h
    · exact List.suffix_rfl
    · exact h.suffix
  | error f =>
    unfold fractionPart at h
    split at h
    · rename_i rest
      have hs : rest.dropWhile Char.isDigit <:+ '.' :: rest :=
        (List.dropWhile_suffix _).trans (List.suffix_cons '.' rest)
      unfold digits at h
      split at h
      · cases h
        exact located_ending trivial
      · rename_i after hne heq
        cases h
        rw [Prod.mk.injEq] at heq
        obtain ⟨-, rfl⟩ := heq
        cases hafter : rest.dropWhile Char.isDigit with
        | nil => exact absurd hafter hne
        | cons c after =>
          rw [hafter] at hs
          exact located_past trivial hs
      · cases h
    · cases h

theorem powerPart_stays (negative : Bool) (text : List Char) : Stays text (powerPart negative text) := by
  cases h : powerPart negative text with
  | ok p => exact (powerPart_after h).suffix
  | error f =>
    cases text with
    | nil =>
      cases h
      exact located_ending trivial
    | cons c rest =>
      simp only [powerPart] at h
      split at h
      · split at h
        · cases h
        · cases h
      · cases h
        exact located_past trivial List.suffix_rfl

theorem exponentPart_stays (text : List Char) : Stays text (exponentPart text) := by
  cases text with
  | nil => exact List.suffix_rfl
  | cons c rest =>
    simp only [exponentPart]
    split
    · refine Stays.mono ?_ (List.suffix_cons c rest)
      have hpower (negative : Bool) (text : List Char) :
          Stays text (powerPart negative text >>= fun q => .ok (some q.1, q.2)) :=
        (powerPart_stays negative text).bind fun _ _ _ hs => hs
      split
      · exact (hpower false _).mono (List.suffix_cons _ _)
      · exact (hpower true _).mono (List.suffix_cons _ _)
      · exact hpower false _
    · exact List.suffix_rfl

section

variable {text rest : List Char} (h : AfterDigit text rest)

include h

theorem located_outOfRange : Located text (Problem.outOfRange.before rest) := by
  obtain ⟨before, d, hd, rfl⟩ := h
  have hascii : d.toNat < 128 := by
    simp only [Char.isDigit, Bool.and_eq_true, decide_eq_true_eq] at hd
    have hle : d.toNat ≤ '9'.toNat := hd.2
    exact Nat.lt_of_le_of_lt hle (by decide)
  exact located_before hd hascii ⟨before, rfl⟩

theorem toDouble_stays (negative : Bool) (x : Scientific) : Stays text (toDouble negative x rest) := by
  unfold toDouble
  cases x.toFloat? with
  | some f => exact h.suffix
  | none => exact located_outOfRange h

end

theorem number_stays (negative : Bool) (text : List Char) : Stays text (number negative text) := by
  unfold number
  refine (wholePart_stays text).bind fun whole r₁ h₁ hs₁ => ?_
  refine ((fractionPart_stays r₁).mono hs₁).bind fun fraction r₂ h₂ hs₂ => ?_
  refine ((exponentPart_stays r₂).mono hs₂).bind fun power r₃ h₃ hs₃ => ?_
  -- the parts that are left out take nothing, so that a digit was read last in any case
  have hdigit : AfterDigit text r₃ :=
    ((wholePart_after h₁).skip (fractionPart_after h₂)).skip (exponentPart_after h₃)
  cases power with
  | none =>
    simp only
    split
    · exact hs₃
    · exact toDouble_stays hdigit negative _
  | some power =>
    cases power with
    | within e => exact toDouble_stays hdigit negative _
    | beyond below =>
      simp only
      split
      · exact (List.dropWhile_suffix _).trans hs₃
      · exact located_outOfRange hdigit

/-! ## Values -/

theorem word_stays (letters text : List Char) : Stays text (word letters text) := by
  induction letters generalizing text with
  | nil => exact List.suffix_rfl
  | cons c letters ih =>
    cases text with
    | nil => exact located_ending trivial
    | cons x after =>
      unfold word
      by_cases hx : x = c
      · rw [if_pos hx]
        exact (ih after).mono (List.suffix_cons x after)
      · rw [if_neg hx]
        exact located_past trivial List.suffix_rfl

theorem scalar_stays (text : List Char) : Stays text (scalar text) := by
  cases text with
  | nil => exact located_ending trivial
  | cons c after =>
    have hs := List.suffix_cons c after
    simp only [scalar]
    split
    · exact Stays.mono ((word_stays _ after).bind fun _ _ _ hs => hs) hs
    split
    · exact Stays.mono ((word_stays _ after).bind fun _ _ _ hs => hs) hs
    split
    · exact Stays.mono ((word_stays _ after).bind fun _ _ _ hs => hs) hs
    split
    · exact Stays.mono ((string_stays after).bind fun _ _ _ hs => hs) hs
    split
    · exact Stays.mono ((number_stays true after).bind fun _ _ _ hs => hs) hs
    split
    · exact (number_stays false _).bind fun _ _ _ hs => hs
    · rename_i hn ht hf hquote hminus hdigit
      have hrefuses : Refuses .noValue c := ⟨by simp [hn, ht, hf, hquote, hminus], by simpa using hdigit⟩
      exact located_past hrefuses List.suffix_rfl

section Lists

variable {α : Type} {item : Reader α} (hi : ∀ text, Stays text (item text))

include hi

theorem moreItems_stays (bound text : List Char) : Stays text (moreItems item bound text) := by
  induction bound generalizing text with
  | nil => exact located_ending trivial
  | cons x bound ih =>
    unfold moreItems
    rcases skipBlanks_cases text with hskip | ⟨c, after, hskip, hc, hs⟩
    · rw [hskip]
      exact located_ending trivial
    rw [hskip]
    simp only
    by_cases hclose : c = ']'
    · rw [if_pos hclose]
      exact (List.suffix_cons c after).trans hs
    rw [if_neg hclose]
    by_cases hcomma : c = ','
    · rw [if_pos hcomma]
      refine Stays.mono ?_ ((List.suffix_cons c after).trans hs)
      rcases skipBlanks_cases after with hskip | ⟨d, rest, hskip, -, hs⟩
      · rw [hskip]
        exact located_ending trivial
      rw [hskip]
      simp only
      by_cases hd : d = ']'
      · rw [if_pos hd]
        exact located_past (.inl hd) hs
      · rw [if_neg hd]
        refine Stays.mono ((hi (d :: rest)).next fun _ r => ?_) hs
        exact (ih r).bind fun _ _ _ hs => hs
    · rw [if_neg hcomma]
      exact located_past ⟨hc, hcomma, hclose⟩ hs

theorem list_stays (text : List Char) : Stays text (list item text) := by
  unfold list
  rcases skipBlanks_cases text with hskip | ⟨c, after, hskip, -, hs⟩
  · rw [hskip]
    exact located_ending trivial
  rw [hskip]
  simp only
  by_cases hclose : c = ']'
  · rw [if_pos hclose]
    exact (List.suffix_cons c after).trans hs
  · rw [if_neg hclose]
    refine Stays.mono ((hi (c :: after)).next fun _ r => ?_) hs
    exact (moreItems_stays hi r r).bind fun _ _ _ hs => hs

end Lists

theorem colon_stays (text : List Char) : Stays text (colon text) := by
  unfold colon
  rcases skipBlanks_cases text with hskip | ⟨c, after, hskip, hc, hs⟩
  · rw [hskip]
    exact located_ending trivial
  rw [hskip]
  simp only
  by_cases hcolon : c = ':'
  · rw [if_pos hcolon]
    exact (List.suffix_cons c after).trans hs
  · rw [if_neg hcolon]
    exact located_past ⟨hc, hcolon⟩ hs

section Objects

variable {α : Type} {value : List String → String → Reader α}
  (hv : ∀ before key text, Stays text (value before key text))

include hv

theorem moreMembers_stays (bound : List Char) (before : List String) (text : List Char) :
    Stays text (moreMembers value bound before text) := by
  induction bound generalizing before text with
  | nil => exact located_ending trivial
  | cons x bound ih =>
    unfold moreMembers
    rcases skipBlanks_cases text with hskip | ⟨c, after, hskip, hc, hs⟩
    · rw [hskip]
      exact located_ending trivial
    rw [hskip]
    simp only
    by_cases hclose : c = '}'
    · rw [if_pos hclose]
      exact (List.suffix_cons c after).trans hs
    rw [if_neg hclose]
    by_cases hcomma : c = ','
    · rw [if_pos hcomma]
      refine Stays.mono ?_ ((List.suffix_cons c after).trans hs)
      rcases skipBlanks_cases after with hskip | ⟨d, rest, hskip, hd, hs⟩
      · rw [hskip]
        exact located_ending trivial
      rw [hskip]
      simp only
      by_cases hquote : d = '"'
      · rw [if_pos hquote]
        refine Stays.mono ?_ ((List.suffix_cons d rest).trans hs)
        refine (string_stays rest).next fun key r => ?_
        refine (hv before key r).next fun _ r => ?_
        exact (ih (key :: before) r).bind fun _ _ _ hs => hs
      · rw [if_neg hquote]
        by_cases hend : d = '}'
        · rw [if_pos hend]
          exact located_past (.inr hend) hs
        · rw [if_neg hend]
          exact located_past ⟨hd, hquote, hend⟩ hs
    · rw [if_neg hcomma]
      exact located_past ⟨hc, hcomma, hclose⟩ hs

theorem object_stays (text : List Char) : Stays text (object value text) := by
  unfold object
  rcases skipBlanks_cases text with hskip | ⟨c, after, hskip, hc, hs⟩
  · rw [hskip]
    exact located_ending trivial
  rw [hskip]
  simp only
  by_cases hclose : c = '}'
  · rw [if_pos hclose]
    exact (List.suffix_cons c after).trans hs
  rw [if_neg hclose]
  by_cases hquote : c = '"'
  · rw [if_pos hquote]
    refine Stays.mono ?_ ((List.suffix_cons c after).trans hs)
    refine (string_stays after).next fun key r => ?_
    refine (hv [] key r).next fun _ r => ?_
    exact (moreMembers_stays hv r [key] r).bind fun _ _ _ hs => hs
  · rw [if_neg hquote]
    exact located_past ⟨hc, hquote, hclose⟩ hs

end Objects

theorem afterColon_stays {α : Type} {value : Reader α} (hv : ∀ text, Stays text (value text)) (text : List Char) :
    Stays text (afterColon value text) :=
  (colon_stays text).next fun _ r => hv r

/-- The reader after a bracket may refuse the bracket itself. -/
theorem next_stays {list object : Reader Json.Value} (hl : ∀ after, Stays ('[' :: after) (list after))
    (ho : ∀ after, Stays ('{' :: after) (object after)) (text : List Char) :
    Stays text (next list object text) := by
  unfold next
  rcases skipBlanks_cases text with hskip | ⟨c, after, hskip, -, hs⟩
  · rw [hskip]
    exact located_ending trivial
  rw [hskip]
  simp only
  refine Stays.mono ?_ hs
  by_cases hlist : c = '['
  · rw [if_pos hlist, hlist]
    exact hl after
  · rw [if_neg hlist]
    by_cases hobject : c = '{'
    · rw [if_pos hobject, hobject]
      exact ho after
    · rw [if_neg hobject]
      exact scalar_stays (c :: after)

theorem value_stays (depth : Nat) (text : List Char) : Stays text (value depth text) := by
  induction depth generalizing text with
  | zero =>
    -- the bracket that is refused has been taken off the text
    refine next_stays (fun after => ?_) (fun after => ?_) text
    · exact located_before (.inl rfl) (by decide) List.suffix_rfl
    · exact located_before (.inr rfl) (by decide) List.suffix_rfl
  | succ depth ih =>
    refine next_stays (fun after => ?_) (fun after => ?_) text
    · refine Stays.mono ?_ (List.suffix_cons _ after)
      exact (list_stays ih after).bind fun _ _ _ hs => hs
    · refine Stays.mono ?_ (List.suffix_cons _ after)
      exact (object_stays (fun _ _ => afterColon_stays ih) after).bind fun _ _ _ hs => hs

/-! ## The outermost node -/

theorem refuse_stays {α : Type} (expected : Shape) (text : List Char) :
    Stays text (refuse expected text : Except Fault (α × List Char)) := by
  unfold refuse
  rcases skipBlanks_cases text with hskip | ⟨c, after, hskip, -, hs⟩
  · rw [hskip]
    exact located_ending trivial
  rw [hskip]
  simp only
  split
  · exact located_mismatch hs
  split
  · exact located_mismatch hs
  · exact Stays.mono ((scalar_stays (c :: after)).bind fun _ _ _ hs => located_mismatch hs) hs

theorem tag_stays (text : List Char) : Stays text (tag text) := by
  unfold tag
  have hs : skipBlanks text <:+ text := List.dropWhile_suffix isBlank
  split
  · rename_i rest hskip
    rw [hskip] at hs
    refine Stays.mono ?_ ((List.suffix_cons _ rest).trans hs)
    exact (string_stays rest).bind fun _ _ _ hs => hs
  · exact (refuse_stays .kind _).mono hs

theorem located_secondTag (text : List Char) : Located text (secondTag text) := by
  unfold secondTag
  have hs : skipBlanks text <:+ text := List.dropWhile_suffix isBlank
  split
  · rename_i rest hskip
    rw [hskip] at hs
    exact located_mismatch ((List.suffix_cons _ rest).trans hs)
  · exact located_mismatch hs

theorem rootMember_stays (depth : Nat) (before : List String) (key : String) (text : List Char) :
    Stays text (rootMember depth before key text) := by
  unfold rootMember
  split
  · split
    · exact located_secondTag text
    · exact afterColon_stays tag_stays text
  · exact afterColon_stays (value_stays depth) text

theorem rootList_stays (depth : Nat) (text : List Char) : Stays text (rootList depth text) := by
  unfold rootList
  have hs : skipBlanks text <:+ text := List.dropWhile_suffix isBlank
  split
  · exact located_ending trivial
  · rename_i rest hskip
    rw [hskip] at hs
    exact located_mismatch ((List.suffix_cons _ rest).trans hs)
  · refine Stays.mono ((tag_stays _).next fun _ r => ?_) hs
    exact (moreItems_stays (value_stays depth) r r).bind fun _ _ _ hs => hs

theorem rootObject_stays (depth : Nat) (text : List Char) : Stays text (rootObject depth text) := by
  refine (object_stays (rootMember_stays depth) text).bind fun ms r _ hs => ?_
  simp only
  split
  · exact hs
  · exact located_mismatch hs

theorem root_stays (depth : Nat) (text : List Char) : Stays text (root depth text) := by
  unfold root
  have hs : skipBlanks text <:+ text := List.dropWhile_suffix isBlank
  split
  · rename_i rest hskip
    rw [hskip] at hs
    exact (rootList_stays depth rest).mono ((List.suffix_cons _ rest).trans hs)
  · rename_i rest hskip
    rw [hskip] at hs
    exact (rootObject_stays depth rest).mono ((List.suffix_cons _ rest).trans hs)
  · exact (refuse_stays .node _).mono hs

theorem finish_eq_error {text : List Char} {f : Fault} (h : finish text = .error f) :
    f.cause = .grammar .trailingCharacters ∧ Located text f := by
  unfold finish at h
  rcases skipBlanks_cases text with hskip | ⟨c, after, hskip, hc, hs⟩
  · rw [hskip] at h
    cases h
  · rw [hskip] at h
    cases h
    exact ⟨rfl, located_past hc hs⟩

end Source

end SharpTree
