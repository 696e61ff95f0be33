/-! # The shortest decimal form of a double

Every positive double stands for the interval of reals that round to it. Its shortest decimal form is taken
from the coarsest grid of multiples of a power of ten that has a point in that interval. -/

namespace SharpTree

/-- The positive number `mantissa * 2 ^ exponent`. The reals that round to it reach half a step up, and half a
step down, or a quarter if `tight`: below a power of two the steps are half as wide. -/
structure Binary where
  mantissa : Nat
  exponent : Int
  tight : Bool
deriving DecidableEq, Repr

namespace Binary

def signBit : Nat := 0x8000000000000000

def leadingBit : Nat := 0x10000000000000

def ofFloat (x : Float) : Binary :=
  let bits := x.toBits.toNat
  let biased : Nat := bits / leadingBit % 0x800
  let fraction : Nat := bits % leadingBit
  if biased = 0 then ⟨fraction, -1074, false⟩
  else ⟨leadingBit + fraction, (biased : Int) - 1075, fraction = 0 && biased != 1⟩

end Binary

structure Shortest where
  digits : Nat
  exponent : Int
deriving DecidableEq, Repr

namespace Shortest

def inUnits (num den : Nat) (e : Int) : Nat × Nat :=
  if 0 ≤ e then (num, den * Nat.pow 10 e.toNat) else (num * Nat.pow 10 (-e).toNat, den)

/-- The multiple of `10 ^ e` that rounds to `x`, if there is one. Of the two neighbours of `x` on the grid the
nearer is taken, and the even one if both are equally near. -/
def onGrid? (x : Binary) (e : Int) : Option Nat :=
  let (scale, den) : Nat × Nat :=
    if 2 ≤ x.exponent then (Nat.pow 2 (x.exponent - 2).toNat, 1) else (1, Nat.pow 2 (2 - x.exponent).toNat)
  let value := 4 * x.mantissa
  let (unit, den) := inUnits scale den e
  let low := (value - if x.tight then 1 else 2) * unit
  let high := (value + 2) * unit
  let mid := value * unit
  let closed := x.mantissa % 2 = 0
  let inside (n : Nat) : Bool :=
    if closed then low ≤ n * den && n * den ≤ high else low < n * den && n * den < high
  let n := mid / den
  let below := mid - n * den
  let above := (n + 1) * den - mid
  match inside n, inside (n + 1) with
  | true, true => some (if below < above || (below = above && n % 2 = 0) then n else n + 1)
  | true, false => some n
  | false, true => some (n + 1)
  | false, false => none

def grids : List Int :=
  -- the coarsest comes first, and none beyond the last can matter for a double
  (List.range 660).map fun (i : Nat) => (309 : Int) - i

def ofBinary (x : Binary) : Shortest :=
  match grids.findSome? fun e => (onGrid? x e).map (⟨·, e⟩) with
  | some d => d
  | none => ⟨0, 0⟩

end Shortest

end SharpTree
