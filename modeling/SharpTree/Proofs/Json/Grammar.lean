import SharpTree.Proofs.Json.Pointer

/-!
# The grammar of JSON

The texts that are JSON, by the productions of RFC 8259 and without the values
that they stand for. One thing is asked beyond the grammar: an escaped half of a
surrogate pair comes with its other half. Which numerals may stand in a text is
left open: `Grammar.Value N d w` says that `w` is such a text with at most `d`
brackets inside each other, and that its numerals have the property `N`.

`WellFormed` is for texts with any numerals. `Document` is for texts whose numerals
are converted to numbers, by the same conversion that is part of the reader. These
are the texts that spell a value (`Grammar.value_iff`).
-/

namespace SharpTree.Json

open Source (plainEscape? hexDigit? hexNumber? isHighSurrogate isLowSurrogate)

namespace Grammar

/-! ## Productions -/

def Ws (w : List Char) : Prop :=
  ∀ c ∈ w, c = ' ' ∨ c = '\t' ∨ c = '\n' ∨ c = '\r'

def HexDigit (c : Char) : Prop :=
  c ∈ ['0', '1', '2', '3', '4', '5', '6', '7', '8', '9', 'a', 'b', 'c', 'd', 'e', 'f', 'A', 'B', 'C', 'D', 'E', 'F']

/-- The first two digits of the first half of a surrogate pair. -/
def HighHalf (a b : Char) : Prop :=
  a ∈ ['d', 'D'] ∧ b ∈ ['8', '9', 'a', 'b', 'A', 'B']

def LowHalf (a b : Char) : Prop :=
  a ∈ ['d', 'D'] ∧ b ∈ ['c', 'd', 'e', 'f', 'C', 'D', 'E', 'F']

inductive Character : List Char → Prop where
  | unescaped {c : Char}
      (h : (0x20 ≤ c.toNat ∧ c.toNat ≤ 0x21) ∨ (0x23 ≤ c.toNat ∧ c.toNat ≤ 0x5B) ∨ 0x5D ≤ c.toNat) : Character [c]
  | escaped {c : Char} (h : c ∈ ['"', '\\', '/', 'b', 'f', 'n', 'r', 't']) : Character ['\\', c]
  | unit {a b c d : Char} (digits : ∀ x ∈ [a, b, c, d], HexDigit x) (high : ¬ HighHalf a b) (low : ¬ LowHalf a b) :
    Character ['\\', 'u', a, b, c, d]
  | pair {a b c d e f g k : Char} (digits : ∀ x ∈ [a, b, c, d, e, f, g, k], HexDigit x) (high : HighHalf a b)
    (low : LowHalf e f) : Character ['\\', 'u', a, b, c, d, '\\', 'u', e, f, g, k]

def Text (w : List Char) : Prop :=
  ∃ cs : List (List Char), (∀ c ∈ cs, Character c) ∧ w = '"' :: (cs.flatten ++ ['"'])

def Scalar (N : Numeral → Prop) (w : List Char) : Prop :=
  w = ['n', 'u', 'l', 'l'] ∨ w = ['t', 'r', 'u', 'e'] ∨ w = ['f', 'a', 'l', 's', 'e'] ∨
    (∃ x, N x ∧ w = Numeral.text x) ∨ Text w

section

variable (P : List Char → Prop)

def Padded (w : List Char) : Prop :=
  ∃ b x b', Ws b ∧ P x ∧ Ws b' ∧ w = b ++ (x ++ b')

/-- Parts between two brackets, with commas between them. -/
def Bracketed (opening closing : Char) (w : List Char) : Prop :=
  ∃ body, (Ws body ∨ ∃ parts, parts ≠ [] ∧ (∀ p ∈ parts, Padded P p) ∧ body = [','].intercalate parts) ∧
    w = opening :: (body ++ [closing])

def Member (w : List Char) : Prop :=
  ∃ key b b' x, Text key ∧ Ws b ∧ Ws b' ∧ P x ∧ w = key ++ (b ++ ':' :: (b' ++ x))

end

/-- A value with at most so many brackets inside each other. -/
def Value (N : Numeral → Prop) : Nat → List Char → Prop
  | 0, w => Scalar N w
  | d + 1, w => Scalar N w ∨ Bracketed (Value N d) '[' ']' w ∨ Bracketed (Member (Value N d)) '{' '}' w

/-- A text that is one value and nothing else but white space around it. -/
def DocumentOf (N : Numeral → Prop) (d : Nat) (text : List Char) : Prop :=
  Padded (Value N d) text

/-- JSON whose numerals the reader converts to numbers. -/
def Document (d : Nat) (text : List Char) : Prop :=
  DocumentOf Numeral.Converts d text

theorem Scalar.value {N : Numeral → Prop} {w : List Char} (h : Scalar N w) : ∀ d, Value N d w
  | 0 => h
  | _ + 1 => .inl h

section

variable {P Q : List Char → Prop} {w : List Char}

theorem Padded.mono (h : Padded P w) (hPQ : ∀ x, P x → Q x) : Padded Q w := by
  obtain ⟨b, x, b', hb, hx, hb', hw⟩ := h
  exact ⟨b, x, b', hb, hPQ x hx, hb', hw⟩

theorem Bracketed.mono {opening closing : Char} (h : Bracketed P opening closing w) (hPQ : ∀ x, P x → Q x) :
    Bracketed Q opening closing w := by
  obtain ⟨body, hbody, hw⟩ := h
  refine ⟨body, hbody.imp_right ?_, hw⟩
  rintro ⟨parts, hne, hparts, hjoin⟩
  exact ⟨parts, hne, fun p hp => (hparts p hp).mono hPQ, hjoin⟩

theorem Member.mono (h : Member P w) (hPQ : ∀ x, P x → Q x) : Member Q w := by
  obtain ⟨key, b, b', x, hkey, hb, hb', hx, hw⟩ := h
  exact ⟨key, b, b', x, hkey, hb, hb', hPQ x hx, hw⟩

end

section

variable {M N : Numeral → Prop} (hMN : ∀ x, M x → N x)
include hMN

theorem Scalar.mono {w : List Char} (h : Scalar M w) : Scalar N w := by
  refine h.imp_right fun h => h.imp_right fun h => h.imp_right fun h => h.imp_left ?_
  rintro ⟨x, hx, hw⟩
  exact ⟨x, hMN x hx, hw⟩

theorem Value.mono {d : Nat} : ∀ w, Value M d w → Value N d w := by
  induction d with
  | zero => exact fun w => Scalar.mono hMN
  | succ d ih =>
    intro w h
    refine Or.imp (Scalar.mono hMN) (Or.imp (fun h => ?_) fun h => ?_) h
    · exact h.mono ih
    · exact h.mono fun x hx => hx.mono ih

theorem DocumentOf.mono {d : Nat} {text : List Char} (h : DocumentOf M d text) : DocumentOf N d text :=
  Padded.mono h (Value.mono hMN)

end

/-! ## Tokens -/

theorem ws_iff {w : List Char} : Ws w ↔ Blanks w := by
  refine forall₂_congr fun c _ => ?_
  simp only [isBlank, Bool.or_eq_true, decide_eq_true_eq]
  grind

/-- What holds of the hexadecimal digits among the first characters holds of all of them. -/
theorem forall_hexDigit? {P : Char → Nat → Prop} (h : ∀ k < 128, ∀ n ∈ hexDigit? (Char.ofNat k), P (Char.ofNat k) n)
    {c : Char} {n : Nat} (hc : hexDigit? c = some n) : P c n := by
  have hlt : c.toNat < 128 := by
    simp only [hexDigit?, Char.le_def, UInt32.le_iff_toNat_le] at hc
    have hv : c.toNat = c.val.toNat := rfl
    have h9 : '9'.val.toNat = 57 := rfl
    have hf : 'f'.val.toNat = 102 := rfl
    have hF : 'F'.val.toNat = 70 := rfl
    split at hc
    · omega
    split at hc
    · omega
    split at hc
    · omega
    · cases hc
  have := h c.toNat hlt
  rw [Char.ofNat_toNat] at this
  exact this n hc

section

variable {a b c d : Char} {x y n : Nat}

theorem hexDigit_iff : HexDigit c ↔ ∃ n, hexDigit? c = some n := by
  constructor
  · intro h
    have hall : ['0', '1', '2', '3', '4', '5', '6', '7', '8', '9', 'a', 'b', 'c', 'd', 'e', 'f', 'A', 'B', 'C', 'D',
        'E', 'F'].all (fun c => (hexDigit? c).isSome) = true := by
      decide
    exact Option.isSome_iff_exists.mp (List.all_eq_true.mp hall c h)
  · rintro ⟨n, h⟩
    exact forall_hexDigit? (P := fun c _ => HexDigit c) (by unfold HexDigit; decide) h

theorem hexDigit?_lt (h : hexDigit? c = some n) : n < 16 :=
  forall_hexDigit? (P := fun _ n => n < 16) (by decide) h

theorem highHalf_iff (ha : hexDigit? a = some x) (hb : hexDigit? b = some y) :
    HighHalf a b ↔ x = 13 ∧ 8 ≤ y ∧ y ≤ 11 :=
  and_congr (forall_hexDigit? (P := fun c n => c ∈ ['d', 'D'] ↔ n = 13) (by decide) ha)
    (forall_hexDigit? (P := fun c n => c ∈ ['8', '9', 'a', 'b', 'A', 'B'] ↔ 8 ≤ n ∧ n ≤ 11) (by decide) hb)

theorem lowHalf_iff (ha : hexDigit? a = some x) (hb : hexDigit? b = some y) : LowHalf a b ↔ x = 13 ∧ 12 ≤ y :=
  and_congr (forall_hexDigit? (P := fun c n => c ∈ ['d', 'D'] ↔ n = 13) (by decide) ha)
    (forall_hexDigit? (P := fun c n => c ∈ ['c', 'd', 'e', 'f', 'C', 'D', 'E', 'F'] ↔ 12 ≤ n) (by decide) hb)

theorem hexNumber?_eq_some : hexNumber? a b c d = some n ↔ ∃ x y z w, hexDigit? a = some x ∧ hexDigit? b = some y ∧
    hexDigit? c = some z ∧ hexDigit? d = some w ∧ n = ((x * 16 + y) * 16 + z) * 16 + w := by
  simp only [hexNumber?, Option.bind_eq_bind, Option.bind_eq_some_iff, Option.some.injEq]
  grind

theorem exists_hexNumber? (h : ∀ x ∈ [a, b, c, d], HexDigit x) : ∃ n, hexNumber? a b c d = some n := by
  simp only [List.forall_mem_cons, hexDigit_iff] at h
  obtain ⟨⟨x, hx⟩, ⟨y, hy⟩, ⟨z, hz⟩, ⟨w, hw⟩, -⟩ := h
  exact ⟨_, hexNumber?_eq_some.mpr ⟨x, y, z, w, hx, hy, hz, hw, rfl⟩⟩

/-- A number of four digits is half of a surrogate pair if the first two digits say so. -/
theorem hexNumber?_digits (h : hexNumber? a b c d = some n) : (∀ x ∈ [a, b, c, d], HexDigit x) ∧
    (isHighSurrogate n = true ↔ HighHalf a b) ∧ (isLowSurrogate n = true ↔ LowHalf a b) := by
  obtain ⟨x, y, z, w, hx, hy, hz, hw, rfl⟩ := hexNumber?_eq_some.mp h
  have := hexDigit?_lt hx
  have := hexDigit?_lt hy
  have := hexDigit?_lt hz
  have := hexDigit?_lt hw
  refine ⟨?_, ?_, ?_⟩
  · simp only [List.forall_mem_cons, hexDigit_iff]
    exact ⟨⟨x, hx⟩, ⟨y, hy⟩, ⟨z, hz⟩, ⟨w, hw⟩, by simp⟩
  · rw [highHalf_iff hx hy]
    simp only [isHighSurrogate, Bool.and_eq_true, decide_eq_true_eq]
    omega
  · rw [lowHalf_iff hx hy]
    simp only [isLowSurrogate, Bool.and_eq_true, decide_eq_true_eq]
    omega

end

theorem escaped_iff {c : Char} : c ∈ ['"', '\\', '/', 'b', 'f', 'n', 'r', 't'] ↔ ∃ x, plainEscape? c = some x := by
  constructor
  · intro h
    have hall : ['"', '\\', '/', 'b', 'f', 'n', 'r', 't'].all (fun c => (plainEscape? c).isSome) = true := by
      decide
    exact Option.isSome_iff_exists.mp (List.all_eq_true.mp hall c h)
  · rintro ⟨x, h⟩
    unfold plainEscape? at h
    grind

theorem unescaped_iff {c : Char} :
    (0x20 ≤ c.toNat ∧ c.toNat ≤ 0x21) ∨ (0x23 ≤ c.toNat ∧ c.toNat ≤ 0x5B) ∨ 0x5D ≤ c.toNat ↔
      c ≠ '"' ∧ c ≠ '\\' ∧ 0x20 ≤ c.toNat := by
  have hq : c = '"' ↔ c.toNat = 0x22 := by rw [← Char.toNat_inj]; rfl
  have hs : c = '\\' ↔ c.toNat = 0x5C := by rw [← Char.toNat_inj]; rfl
  rw [Ne, Ne, hq, hs]
  omega

theorem character_iff {w : List Char} : Character w ↔ ∃ c, SpellsChar c w := by
  constructor
  · intro h
    cases h with
    | unescaped h =>
      obtain ⟨hq, hs, hc⟩ := unescaped_iff.mp h
      exact ⟨_, .plain hq hs hc⟩
    | escaped h =>
      obtain ⟨x, hx⟩ := escaped_iff.mp h
      exact ⟨x, .letter hx⟩
    | unit digits high low =>
      obtain ⟨n, hn⟩ := exists_hexNumber? digits
      obtain ⟨-, hhigh, hlow⟩ := hexNumber?_digits hn
      exact ⟨_, .unit hn (Bool.eq_false_iff.mpr fun h => low (hlow.mp h))
        (Bool.eq_false_iff.mpr fun h => high (hhigh.mp h))⟩
    | @pair a b c d e f g k digits high low =>
      have hsplit : (∀ x ∈ [a, b, c, d], HexDigit x) ∧ ∀ x ∈ [e, f, g, k], HexDigit x :=
        List.forall_mem_append.mp digits
      obtain ⟨m, hm⟩ := exists_hexNumber? hsplit.1
      obtain ⟨n, hn⟩ := exists_hexNumber? hsplit.2
      obtain ⟨-, hhigh, -⟩ := hexNumber?_digits hm
      obtain ⟨-, -, hlow⟩ := hexNumber?_digits hn
      exact ⟨_, .pair hm hn (hhigh.mpr high) (hlow.mpr low)⟩
  · rintro ⟨c, h⟩
    cases h with
    | plain quote slash control => exact .unescaped (unescaped_iff.mpr ⟨quote, slash, control⟩)
    | letter h => exact .escaped (escaped_iff.mpr ⟨_, h⟩)
    | unit h low high =>
      obtain ⟨hdigits, hhigh, hlow⟩ := hexNumber?_digits h
      refine .unit hdigits (fun e => ?_) fun e => ?_
      · rw [hhigh.mpr e] at high
        cases high
      · rw [hlow.mpr e] at low
        cases low
    | pair h₁ h₂ high low =>
      obtain ⟨hd₁, hhigh, -⟩ := hexNumber?_digits h₁
      obtain ⟨hd₂, -, hlow⟩ := hexNumber?_digits h₂
      exact .pair (List.forall_mem_append.mpr ⟨hd₁, hd₂⟩) (hhigh.mp high) (hlow.mp low)

theorem text_iff {w : List Char} : Text w ↔ ∃ s, SpellsString s w := by
  constructor
  · rintro ⟨cs, hcs, rfl⟩
    have hspells : ∃ xs, SpellsChars xs cs.flatten := by
      induction cs with
      | nil => exact ⟨[], .nil⟩
      | cons c cs ih =>
        obtain ⟨hc, hcs⟩ := List.forall_mem_cons.mp hcs
        obtain ⟨x, hx⟩ := character_iff.mp hc
        obtain ⟨xs, hxs⟩ := ih hcs
        exact ⟨x :: xs, .cons hx hxs⟩
    obtain ⟨xs, hxs⟩ := hspells
    exact ⟨.ofList xs, _, by rwa [String.toList_ofList], rfl⟩
  · rintro ⟨s, x, hx, rfl⟩
    have hparts : ∀ {xs w : List Char}, SpellsChars xs w →
        ∃ cs : List (List Char), (∀ c ∈ cs, Character c) ∧ w = cs.flatten := by
      intro xs w h
      induction h with
      | nil => exact ⟨[], by simp, rfl⟩
      | @cons c xs w ws head _ ih =>
        obtain ⟨cs, hcs, rfl⟩ := ih
        exact ⟨w :: cs, List.forall_mem_cons.mpr ⟨character_iff.mpr ⟨c, head⟩, hcs⟩, rfl⟩
    obtain ⟨cs, hcs, rfl⟩ := hparts hx
    exact ⟨cs, hcs, rfl⟩

/-! ## Rows of items and members -/

section

variable {α : Type}

/-- What follows an opening bracket: parts with commas before all but the first, and the closing bracket. -/
def Row (part : α → List Char → Prop) (closing : Char) : Bool → List α → List Char → Prop
  | _, [], w => ∃ b, Blanks b ∧ w = b ++ [closing]
  | first, a :: as, w =>
    ∃ lead x more, Lead first lead ∧ part a x ∧ Row part closing false as more ∧ w = lead ++ (x ++ more)

variable {part : α → List Char → Prop} {P : List Char → Prop} {closing : Char}

theorem exists_row (closing : Char) (hP : ∀ x, P x → ∃ a, part a x) {ps : List (List Char)}
    (hps : ∀ p ∈ ps, Padded P p) {b : List Char} (hb : Blanks b) :
    ∃ as, Row part closing false as (b ++ (ps.flatMap (',' :: ·) ++ [closing])) := by
  induction ps generalizing b with
  | nil => exact ⟨[], b, hb, rfl⟩
  | cons p ps ih =>
    obtain ⟨⟨b₁, x, b₂, hb₁, hx, hb₂, rfl⟩, hrest⟩ := List.forall_mem_cons.mp hps
    obtain ⟨a, ha⟩ := hP x hx
    obtain ⟨as, has⟩ := ih hrest (ws_iff.mp hb₂)
    exact ⟨a :: as, b ++ ',' :: b₁, x, _, ⟨b, b₁, hb, ws_iff.mp hb₁, rfl⟩, ha, has, by simp⟩

theorem exists_parts (hP : ∀ a x, part a x → P x) {as : List α} {w : List Char} (h : Row part closing false as w) :
    ∃ (b : List Char) (ps : List (List Char)), Blanks b ∧ (∀ p ∈ ps, Padded P p) ∧
      w = b ++ (ps.flatMap (',' :: ·) ++ [closing]) := by
  induction as generalizing w with
  | nil =>
    obtain ⟨b, hb, rfl⟩ := h
    exact ⟨b, [], hb, by simp, rfl⟩
  | cons a as ih =>
    obtain ⟨_, x, more, ⟨b₁, b₂, hb₁, hb₂, rfl⟩, hx, hmore, rfl⟩ := h
    obtain ⟨b, ps, hb, hps, rfl⟩ := ih hmore
    refine ⟨b₁, (b₂ ++ (x ++ b)) :: ps, hb₁, List.forall_mem_cons.mpr ⟨?_, hps⟩, by simp⟩
    exact ⟨b₂, x, b, ws_iff.mpr hb₂, hP a x hx, ws_iff.mpr hb, rfl⟩

theorem intercalate_comma (p : List Char) (ps : List (List Char)) :
    [','].intercalate (p :: ps) = p ++ ps.flatMap (',' :: ·) := by
  induction ps generalizing p with
  | nil => simp
  | cons q ps ih =>
    rw [List.intercalate_cons_cons, ih, List.flatMap_cons]
    simp

theorem bracketed_iff (hP : ∀ x, P x ↔ ∃ a, part a x) {opening : Char} {w : List Char} :
    Bracketed P opening closing w ↔ ∃ as body, Row part closing true as body ∧ w = opening :: body := by
  constructor
  · rintro ⟨body, hb | ⟨parts, hne, hparts, rfl⟩, rfl⟩
    · exact ⟨[], _, ⟨body, ws_iff.mp hb, rfl⟩, rfl⟩
    · obtain ⟨p, ps, rfl⟩ := List.exists_cons_of_ne_nil hne
      obtain ⟨⟨b₁, x, b₂, hb₁, hx, hb₂, rfl⟩, hps⟩ := List.forall_mem_cons.mp hparts
      obtain ⟨a, ha⟩ := (hP x).mp hx
      obtain ⟨as, has⟩ := exists_row closing (fun x => (hP x).mp) hps (ws_iff.mp hb₂)
      exact ⟨a :: as, _, ⟨b₁, x, _, ws_iff.mp hb₁, ha, has, rfl⟩, by rw [intercalate_comma]; simp⟩
  · rintro ⟨as, body, h, rfl⟩
    cases as with
    | nil =>
      obtain ⟨b, hb, rfl⟩ := h
      exact ⟨b, .inl (ws_iff.mpr hb), rfl⟩
    | cons a as =>
      obtain ⟨b₁, x, more, hb₁, hx, hmore, rfl⟩ := h
      obtain ⟨b, ps, hb, hps, rfl⟩ := exists_parts (fun a x h => (hP x).mpr ⟨a, h⟩) hmore
      refine ⟨_, .inr ⟨(b₁ ++ (x ++ b)) :: ps, by simp, List.forall_mem_cons.mpr ⟨?_, hps⟩, rfl⟩, ?_⟩
      · exact ⟨b₁, x, b, ws_iff.mpr hb₁, (hP x).mpr ⟨a, hx⟩, ws_iff.mpr hb, rfl⟩
      · rw [intercalate_comma]
        simp

end

open Json.Value (SpellsItems SpellsMembers nesting nestingItems nestingMembers)

theorem row_items {d : Nat} {vs : List Json.Value} {first : Bool} {w : List Char} :
    Row (fun v x => v.Spells x ∧ v.nesting ≤ d) ']' first vs w ↔ SpellsItems first vs w ∧ nestingItems vs ≤ d := by
  induction vs generalizing first w with
  | nil => simp [Row, SpellsItems, nestingItems]
  | cons v vs ih =>
    simp only [Row, ih, SpellsItems, nestingItems, Nat.max_le]
    grind

theorem row_members {d : Nat} {ms : List (String × Json.Value)} {first : Bool} {w : List Char} :
    Row (fun m x => m.2.nesting ≤ d ∧ ∃ key b b' y, SpellsString m.1 key ∧ Blanks b ∧ Blanks b' ∧ m.2.Spells y ∧
      x = key ++ (b ++ ':' :: (b' ++ y))) '}' first ms w ↔ SpellsMembers first ms w ∧ nestingMembers ms ≤ d := by
  induction ms generalizing first w with
  | nil => simp [Row, SpellsMembers, nestingMembers]
  | cons m ms ih =>
    simp only [Row, ih, SpellsMembers, nestingMembers, Nat.max_le]
    constructor
    · rintro ⟨lead, _, more, hl, ⟨hn, key, b, b', y, hk, hb, hb', hy, rfl⟩, ⟨hm, hns⟩, rfl⟩
      exact ⟨⟨lead, key, b, b', y, more, hl, hk, hb, hb', hy, hm, by simp⟩, hn, hns⟩
    · rintro ⟨⟨lead, key, b, b', y, more, hl, hk, hb, hb', hy, hm, rfl⟩, hn, hns⟩
      exact ⟨lead, _, more, hl, ⟨hn, key, b, b', y, hk, hb, hb', hy, rfl⟩, ⟨hm, hns⟩, by simp⟩

/-! ## Values -/

theorem scalar_iff {w : List Char} :
    Scalar Numeral.Converts w ↔ ∃ v : Json.Value, v.Spells w ∧ v.nesting = 0 := by
  constructor
  · rintro (h | h | h | ⟨x, hx, h⟩ | h)
    · exact ⟨.null, h, rfl⟩
    · exact ⟨.bool true, h, rfl⟩
    · exact ⟨.bool false, h, rfl⟩
    · obtain ⟨n, hn⟩ := Option.isSome_iff_exists.mp hx
      exact ⟨.num n, ⟨x, hn, h⟩, rfl⟩
    · obtain ⟨s, hs⟩ := text_iff.mp h
      exact ⟨.str s, hs, rfl⟩
  · rintro ⟨v, h, hn⟩
    cases v with
    | null => exact .inl h
    | bool b =>
      cases b with
      | true => exact .inr (.inl h)
      | false => exact .inr (.inr (.inl h))
    | num n =>
      obtain ⟨x, hx, h⟩ := h
      exact .inr (.inr (.inr (.inl ⟨x, by rw [Numeral.Converts, hx]; rfl, h⟩)))
    | str s => exact .inr (.inr (.inr (.inr (text_iff.mpr ⟨s, h⟩))))
    | arr vs => simp [nesting] at hn
    | obj ms => simp [nesting] at hn

theorem member_iff {P : List Char → Prop} {d : Nat} (ih : ∀ w, P w ↔ ∃ v : Json.Value, v.Spells w ∧ v.nesting ≤ d)
    (x : List Char) : Member P x ↔ ∃ m : String × Json.Value, m.2.nesting ≤ d ∧ ∃ key b b' y,
      SpellsString m.1 key ∧ Blanks b ∧ Blanks b' ∧ m.2.Spells y ∧ x = key ++ (b ++ ':' :: (b' ++ y)) := by
  simp only [Member, text_iff, ws_iff, ih]
  constructor
  · rintro ⟨key, b, b', y, ⟨k, hk⟩, hb, hb', ⟨v, hv, hn⟩, rfl⟩
    exact ⟨(k, v), hn, key, b, b', y, hk, hb, hb', hv, rfl⟩
  · rintro ⟨⟨k, v⟩, hn, key, b, b', y, hk, hb, hb', hv, rfl⟩
    exact ⟨key, b, b', y, ⟨k, hk⟩, hb, hb', ⟨v, hv, hn⟩, rfl⟩

/-- The texts of the grammar whose numerals are converted are those that spell a value. -/
theorem value_iff (d : Nat) (w : List Char) :
    Value Numeral.Converts d w ↔ ∃ v : Json.Value, v.Spells w ∧ v.nesting ≤ d := by
  induction d generalizing w with
  | zero => simp only [Value, scalar_iff, Nat.le_zero]
  | succ d ih =>
    rw [Value, scalar_iff, bracketed_iff ih, bracketed_iff (member_iff ih)]
    simp only [row_items, row_members]
    constructor
    · rintro (⟨v, hv, hn⟩ | ⟨vs, body, ⟨hb, hn⟩, rfl⟩ | ⟨ms, body, ⟨hb, hn⟩, rfl⟩)
      · exact ⟨v, hv, by omega⟩
      · exact ⟨.arr vs, ⟨body, hb, rfl⟩, Nat.succ_le_succ hn⟩
      · exact ⟨.obj ms, ⟨body, hb, rfl⟩, Nat.succ_le_succ hn⟩
    · rintro ⟨v, hv, hn⟩
      cases v with
      | arr vs =>
        obtain ⟨body, hb, rfl⟩ := hv
        exact .inr (.inl ⟨vs, body, ⟨hb, Nat.le_of_succ_le_succ hn⟩, rfl⟩)
      | obj ms =>
        obtain ⟨body, hb, rfl⟩ := hv
        exact .inr (.inr ⟨ms, body, ⟨hb, Nat.le_of_succ_le_succ hn⟩, rfl⟩)
      | _ => exact .inl ⟨_, hv, rfl⟩

theorem document_iff {d : Nat} {text : List Char} :
    Document d text ↔ ∃ v : Json.Value, v.Document text ∧ v.nesting ≤ d := by
  simp only [Document, DocumentOf, Padded, value_iff, ws_iff, Json.Value.Document]
  constructor
  · rintro ⟨b, x, b', hb, ⟨v, hv, hn⟩, hb', rfl⟩
    exact ⟨v, ⟨b, x, b', hb, hv, hb', rfl⟩, hn⟩
  · rintro ⟨v, ⟨b, x, b', hb, hv, hb', rfl⟩, hn⟩
    exact ⟨b, x, b', hb, ⟨v, hv, hn⟩, hb', rfl⟩

end Grammar

end SharpTree.Json

/-! ## The text of a node -/

namespace SharpTree

open Json (Value Numeral Blanks SpellsChars SpellsString)
open Json.Grammar (Ws Text Scalar Padded Member ws_iff text_iff)
open Source (blanks_nil)

/-- The text of a node that has one field besides its tag. -/
def nodeText (tag field content : String) : String :=
  "\x7b\"type\":\"" ++ tag ++ "\",\"" ++ field ++ "\":" ++ content ++ "\x7d"

def nodeStart (tag field : String) : String :=
  "\x7b\"type\":\"" ++ tag ++ "\",\"" ++ field ++ "\":"

theorem nodeText_eq (tag field content : String) :
    nodeText tag field content = nodeStart tag field ++ (content ++ "\x7d") := by
  delta nodeText nodeStart
  simp only [String.append_assoc]

/-- The names that are written between quotes as they are. -/
def Verbatim (s : String) : Prop :=
  s.toList.all (fun c => c ≠ '"' && c ≠ '\\' && 0x20 ≤ c.toNat) = true

instance (s : String) : Decidable (Verbatim s) :=
  inferInstanceAs (Decidable (_ = true))

theorem spellsChars_verbatim {cs : List Char} (h : cs.all (fun c => c ≠ '"' && c ≠ '\\' && 0x20 ≤ c.toNat) = true) :
    SpellsChars cs cs := by
  induction cs with
  | nil => exact .nil
  | cons c cs ih =>
    simp only [List.all_cons, Bool.and_eq_true, decide_eq_true_eq] at h
    obtain ⟨⟨⟨hquote, hslash⟩, hcontrol⟩, hcs⟩ := h
    exact .cons (.plain hquote hslash hcontrol) (ih (by simpa using hcs))

theorem Verbatim.spells {s : String} (h : Verbatim s) : SpellsString s ('"' :: (s.toList ++ ['"'])) :=
  ⟨s.toList, spellsChars_verbatim h, rfl⟩

theorem Verbatim.text {s : String} (h : Verbatim s) : Text ('"' :: (s.toList ++ ['"'])) :=
  text_iff.mpr ⟨s, h.spells⟩

section

variable {tag field content : String} (htag : Verbatim tag) (hfield : Verbatim field)
include htag hfield

theorem spells_nodeText {v : Value} (h : v.Document content.toList) :
    (Value.obj [("type", .str tag), (field, v)]).Spells (nodeText tag field content).toList := by
  obtain ⟨b₁, w, b₂, hb₁, hw, hb₂, hs⟩ := h
  have htype : SpellsString "type" ('"' :: ("type".toList ++ ['"'])) := Verbatim.spells (by decide)
  have hlead : Json.Lead false [','] := ⟨[], [], blanks_nil, blanks_nil, rfl⟩
  refine ⟨_, ⟨[], _, [], [], _, _, blanks_nil, htype, blanks_nil, blanks_nil, htag.spells,
    ⟨[','], _, [], b₁, w, b₂ ++ ['}'], hlead, hfield.spells, blanks_nil, hb₁, hw, ⟨b₂, hb₂, rfl⟩, rfl⟩, rfl⟩, ?_⟩
  delta nodeText
  simp [hs]

theorem document_nodeText {v : Value} (h : v.Document content.toList) :
    (Value.obj [("type", .str tag), (field, v)]).Document (nodeText tag field content).toList :=
  (spells_nodeText htag hfield h).document

theorem documentOf_nodeText {N : Numeral → Prop} {d : Nat} (h : Json.Grammar.Value N d content.toList) :
    Json.Grammar.DocumentOf N (d + 1) (nodeText tag field content).toList := by
  have hnone : Ws [] := ws_iff.mpr blanks_nil
  have htype : Text ('"' :: ("type".toList ++ ['"'])) := Verbatim.text (by decide)
  have hname : Json.Grammar.Value N d ('"' :: (tag.toList ++ ['"'])) :=
    Scalar.value (.inr (.inr (.inr (.inr htag.text)))) d
  have hpadded {x : List Char} (hx : Member (Json.Grammar.Value N d) x) :
      Padded (Member (Json.Grammar.Value N d)) x :=
    ⟨[], x, [], hnone, hx, hnone, by simp⟩
  have hparts := List.forall_mem_cons.mpr ⟨hpadded ⟨_, [], [], _, htype, hnone, hnone, hname, rfl⟩,
    List.forall_mem_singleton.mpr (hpadded ⟨_, [], [], _, hfield.text, hnone, hnone, h, rfl⟩)⟩
  refine ⟨[], _, [], hnone, .inr (.inr ⟨_, .inr ⟨_, by simp, hparts, rfl⟩, rfl⟩), hnone, ?_⟩
  delta nodeText
  simp

end

end SharpTree
