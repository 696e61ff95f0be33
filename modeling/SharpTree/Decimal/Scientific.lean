/-! # Decimal numbers with a bounded significand

A decimal numeral is brought into the form `significand * 10 ^ exponent` with a significand of 64 bits, and
from there to a double by one multiplication or a few divisions. The result is close to the numeral but not
always the nearest double: each step rounds. -/

namespace SharpTree

structure Scientific where
  significand : Nat
  exponent : Int
deriving DecidableEq, Repr

namespace Scientific

def limit : Nat := 0x10000000000000000

/-- Appends digits to a significand as long as it fits into 64 bits; the second part holds the digits that no
longer do, from the first of them on. -/
def absorb : Nat → List Nat → Nat × List Nat
  | s, [] => (s, [])
  | s, d :: ds => if 10 * s + d < limit then absorb (10 * s + d) ds else (s, d :: ds)

/-- The digits before the point. Those that do not fit are counted into the exponent. -/
def ofInteger (ds : List Nat) : Scientific :=
  let (s, dropped) := absorb 0 ds
  ⟨s, dropped.length⟩

/-- Adds the digits after the point. Those that do not fit are ignored. -/
def addFraction (x : Scientific) (ds : List Nat) : Scientific :=
  let (s, dropped) := absorb x.significand ds
  ⟨s, x.exponent - (ds.length - dropped.length : Nat)⟩

def shift (x : Scientific) (e : Int) : Scientific :=
  { x with exponent := x.exponent + e }

def powerOfTen (k : Nat) : Float :=
  Float.ofScientific 1 false k

def lower (x : Float) (k : Nat) : Float :=
  if k ≤ 308 then x / powerOfTen k
  else if x == 0 then x
  else lower (x / powerOfTen 308) (k - 308)
termination_by k

def raise? (x : Float) (k : Nat) : Option Float :=
  if k ≤ 308 then
    let y := x * powerOfTen k
    if y.isInf then none else some y
  else if x == 0 then some x
  else none

def toFloat? (x : Scientific) : Option Float :=
  let s := x.significand.toUInt64.toFloat
  if 0 ≤ x.exponent then raise? s x.exponent.toNat else some (lower s (-x.exponent).toNat)

end Scientific

end SharpTree
