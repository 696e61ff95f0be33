import SharpTree.Json.Printer
import SharpTree.Source.Number
import SharpTree.Source.Text
import SharpTree.Text.Blank

/-!
# Spellings of JSON values

A value has many texts: blanks may stand between tokens, a character of a
string may be escaped in several ways, a number may be written with or without
an exponent. `Spells v w` says that `w` is a text of `v`, whoever wrote it.

What a numeral stands for is not its exact value. `Numeral.value?` is made of the
steps by which numbers are read (`toInteger?` and the arithmetic of `Scientific`),
with all that they round, and has no value where these steps leave the range of
doubles. `nesting` counts the brackets that stand inside each other in every text
of a value.
-/

namespace SharpTree.Json

open Source (plainEscape? hexNumber? isHighSurrogate isLowSurrogate surrogatePair digitValue toInteger?)

def Blanks (w : List Char) : Prop :=
  ∀ c ∈ w, isBlank c = true

instance (w : List Char) : Decidable (Blanks w) :=
  decidable_of_iff (w.all isBlank = true) List.all_eq_true

/-! ## Strings -/

/-- The ways to write one character between quotes. -/
inductive SpellsChar : Char → List Char → Prop where
  | plain {c : Char} (quote : c ≠ '"') (slash : c ≠ '\\') (control : 0x20 ≤ c.toNat) : SpellsChar c [c]
  | letter {c x : Char} (h : plainEscape? c = some x) : SpellsChar x ['\\', c]
  | unit {a b c d : Char} {n : Nat} (h : hexNumber? a b c d = some n) (low : isLowSurrogate n = false)
    (high : isHighSurrogate n = false) : SpellsChar (Char.ofNat n) ['\\', 'u', a, b, c, d]
  | pair {a b c d e f g k : Char} {m n : Nat} (h₁ : hexNumber? a b c d = some m) (h₂ : hexNumber? e f g k = some n)
    (high : isHighSurrogate m = true) (low : isLowSurrogate n = true) :
    SpellsChar (surrogatePair m n) ['\\', 'u', a, b, c, d, '\\', 'u', e, f, g, k]

inductive SpellsChars : List Char → List Char → Prop where
  | nil : SpellsChars [] []
  | cons {c : Char} {cs w ws : List Char} (head : SpellsChar c w) (tail : SpellsChars cs ws) :
    SpellsChars (c :: cs) (w ++ ws)

def SpellsString (s : String) (w : List Char) : Prop :=
  ∃ x, SpellsChars s.toList x ∧ w = '"' :: (x ++ ['"'])

/-! ## Numbers -/

def Digits (w : List Char) : Prop :=
  w ≠ [] ∧ ∀ c ∈ w, c.isDigit = true

structure Exponent where
  mark : Char
  sign : Option Bool
  digits : List Char
  mark_eq : mark = 'e' ∨ mark = 'E'
  digits_run : Digits digits

namespace Exponent

def lower (sign : Option Bool) {w : List Char} (hw : Digits w) : Exponent :=
  ⟨'e', sign, w, .inl rfl, hw⟩

def signText : Option Bool → List Char
  | none => []
  | some false => ['+']
  | some true => ['-']

def text (e : Exponent) : List Char :=
  e.mark :: (signText e.sign ++ e.digits)

def negative (e : Exponent) : Bool :=
  e.sign.getD false

def magnitude (e : Exponent) : Nat :=
  e.digits.foldl (fun n c => 10 * n + digitValue c) 0

end Exponent

/-- The parts of a number as they are written. No zero stands before another digit of the whole part. -/
structure Numeral where
  negative : Bool
  whole : List Char
  fraction : Option (List Char)
  exponent : Option Exponent
  whole_run : Digits whole
  whole_zero : whole.head? = some '0' → whole = ['0']
  fraction_run : ∀ w, fraction = some w → Digits w

namespace Numeral

/-- The numeral that has one digit before the point, and no point if there is no other digit. -/
def pointed (neg : Bool) {c : Char} {f : List Char} (hd : Digits (c :: f)) (e : Exponent) : Numeral where
  negative := neg
  whole := [c]
  fraction := if f = [] then none else some f
  exponent := some e
  whole_run := ⟨by simp, fun d hc => hd.2 d (by simp_all)⟩
  whole_zero := fun h => by simpa using h
  fraction_run := fun w h => by
    split at h
    · cases h
    · rename_i hf
      cases h
      exact ⟨hf, fun d hw => hd.2 d (by simp [hw])⟩

def body (x : Numeral) : List Char :=
  x.whole ++ (x.fraction.elim [] ('.' :: ·) ++ x.exponent.elim [] Exponent.text)

def text (x : Numeral) : List Char :=
  if x.negative then '-' :: x.body else x.body

def integer (x : Numeral) : Scientific :=
  Scientific.ofInteger (x.whole.map digitValue)

def decimal (x : Numeral) : Scientific :=
  x.integer.addFraction ((x.fraction.getD []).map digitValue)

def double? (x : Numeral) (y : Scientific) : Option Number :=
  y.toFloat?.map fun f => .float (if x.negative then -f else f)

/-- The number that a numeral is converted to, if the conversion comes to an end within the range of doubles. An
exponent of more than 31 bits makes the number zero or too large. -/
def value? (x : Numeral) : Option Number :=
  match x.exponent with
  | none =>
    match x.fraction, toInteger? x.negative x.integer with
    | none, some z => some (.int z)
    | _, _ => x.double? x.decimal
  | some e =>
    if e.magnitude < 0x80000000 then x.double? (x.decimal.shift (if e.negative then -e.magnitude else e.magnitude))
    else if x.decimal.significand = 0 || e.negative then some (.float (if x.negative then -0.0 else 0.0))
    else none

/-- The conversion of the reader gives a number. This is not the same as to be in the range of doubles: each
step of the conversion rounds, so near the end of the range it may fail too early or too late. -/
def Converts (x : Numeral) : Prop :=
  x.value?.isSome = true

end Numeral

def SpellsNumber (n : Number) (w : List Char) : Prop :=
  ∃ x : Numeral, x.value? = some n ∧ w = x.text

/-! ## Values -/

/-- What stands before an item: blanks, and a comma among them unless the item is the first. -/
def Lead (first : Bool) (w : List Char) : Prop :=
  if first then Blanks w else ∃ b₁ b₂, Blanks b₁ ∧ Blanks b₂ ∧ w = b₁ ++ ',' :: b₂

namespace Value

mutual
def Spells : Value → List Char → Prop
  | .null, w => w = ['n', 'u', 'l', 'l']
  | .bool true, w => w = ['t', 'r', 'u', 'e']
  | .bool false, w => w = ['f', 'a', 'l', 's', 'e']
  | .num n, w => SpellsNumber n w
  | .str s, w => SpellsString s w
  | .arr vs, w => ∃ body, SpellsItems true vs body ∧ w = '[' :: body
  | .obj ms, w => ∃ body, SpellsMembers true ms body ∧ w = '{' :: body
/-- The items of a list, and the closing bracket. -/
def SpellsItems : Bool → List Value → List Char → Prop
  | _, [], w => ∃ b, Blanks b ∧ w = b ++ [']']
  | first, v :: vs, w =>
    ∃ lead x more, Lead first lead ∧ Spells v x ∧ SpellsItems false vs more ∧ w = lead ++ (x ++ more)
def SpellsMembers : Bool → List (String × Value) → List Char → Prop
  | _, [], w => ∃ b, Blanks b ∧ w = b ++ ['}']
  | first, (k, v) :: ms, w =>
    ∃ lead key b₁ b₂ x more, Lead first lead ∧ SpellsString k key ∧ Blanks b₁ ∧ Blanks b₂ ∧ Spells v x ∧
      SpellsMembers false ms more ∧ w = lead ++ (key ++ (b₁ ++ ':' :: (b₂ ++ (x ++ more))))
end

mutual
def nesting : Value → Nat
  | .arr vs => nestingItems vs + 1
  | .obj ms => nestingMembers ms + 1
  | _ => 0
def nestingItems : List Value → Nat
  | [] => 0
  | v :: vs => max v.nesting (nestingItems vs)
def nestingMembers : List (String × Value) → Nat
  | [] => 0
  | (_, v) :: ms => max v.nesting (nestingMembers ms)
end

/-- A text that holds a value and nothing else but blanks around it. -/
def Document (v : Value) (text : List Char) : Prop :=
  ∃ b₁ w b₂, Blanks b₁ ∧ v.Spells w ∧ Blanks b₂ ∧ text = b₁ ++ (w ++ b₂)

end Value

end SharpTree.Json
