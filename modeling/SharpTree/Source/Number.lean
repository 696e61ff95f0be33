import SharpTree.Decimal.Scientific
import SharpTree.Source.Fault

/-! # Reading numbers

A numeral without a point and an exponent is an integer if a word can hold it. All others are doubles. -/

namespace SharpTree.Source

open Json (Number)

def digitValue (c : Char) : Nat :=
  c.toNat - '0'.toNat

def digits (rest : List Char) : List Nat × List Char :=
  ((rest.takeWhile Char.isDigit).map digitValue, rest.dropWhile Char.isDigit)

def wholePart : Reader (List Nat)
  | [] => .error (Problem.valueEnds.before [])
  | rest@(c :: after) =>
    if c.isDigit then
      -- no zero stands before another digit
      if c = '0' && after.head?.any Char.isDigit then .error (Problem.badNumber.past after)
      else .ok (digits rest)
    else .error (Problem.badNumber.past rest)

def fractionPart : Reader (Option (List Nat))
  | '.' :: rest =>
    match digits rest with
    | ([], []) => .error (Problem.valueEnds.past [])
    | ([], after) => .error (Problem.badNumber.past after)
    | (ds, after) => .ok (some ds, after)
  | rest => .ok (none, rest)

/-- An exponent, of which only the sign matters once it takes more than 31 bits. -/
inductive Power where
  | within (value : Int)
  | beyond (negative : Bool)
deriving DecidableEq, Repr

/-- Appends digits to a number. There is no answer from the first digit on that makes it too large, and the rest
then starts after that digit. -/
def powerDigits : Nat → List Char → Option Nat × List Char
  | n, [] => (some n, [])
  | n, c :: rest =>
    if c.isDigit then
      let m := 10 * n + digitValue c
      if m < 0x80000000 then powerDigits m rest else (none, rest)
    else (some n, c :: rest)

def powerPart (negative : Bool) : Reader Power
  | [] => .error (Problem.valueEnds.before [])
  | rest@(c :: _) =>
    if c.isDigit then
      match powerDigits 0 rest with
      | (some n, after) => .ok (.within (if negative then -n else n), after)
      | (none, after) => .ok (.beyond negative, after)
    else .error (Problem.badNumber.past rest)

def exponentPart : Reader (Option Power)
  | [] => .ok (none, [])
  | c :: rest =>
    if c = 'e' || c = 'E' then do
      let (p, rest) ← match rest with
        | '+' :: rest => powerPart false rest
        | '-' :: rest => powerPart true rest
        | rest => powerPart false rest
      .ok (some p, rest)
    else .ok (none, c :: rest)

/-- The double close to a decimal number, refused where the rest begins if it is out of range. -/
def toDouble (negative : Bool) (x : Scientific) : Reader Number := fun rest =>
  match x.toFloat? with
  | some f => .ok (.float (if negative then -f else f), rest)
  | none => .error (Problem.outOfRange.before rest)

/-- The integer of a numeral without a point and an exponent, if a word can hold it. -/
def toInteger? (negative : Bool) (x : Scientific) : Option Int :=
  if x.exponent ≠ 0 then none
  else if !negative then some x.significand
  else if x.significand ≠ 0 && x.significand ≤ 0x8000000000000000 then some (-x.significand)
  else none

def number (negative : Bool) : Reader Number := fun rest => do
  let (whole, rest) ← wholePart rest
  let (fraction, rest) ← fractionPart rest
  let (power, rest) ← exponentPart rest
  let x := Scientific.ofInteger whole
  let y := x.addFraction (fraction.getD [])
  match power with
  | some (.within e) => toDouble negative (y.shift e) rest
  | some (.beyond below) =>
    if y.significand = 0 || below then
      .ok (.float (if negative then -0.0 else 0.0), rest.dropWhile Char.isDigit)
    else .error (Problem.outOfRange.before rest)
  | none =>
    match fraction, toInteger? negative x with
    | none, some z => .ok (.int z, rest)
    | _, _ => toDouble negative y rest

end SharpTree.Source
