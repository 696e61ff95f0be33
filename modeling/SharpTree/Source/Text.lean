import SharpTree.Source.Fault

/-! # Reading strings -/

namespace SharpTree.Source

def plainEscape? (c : Char) : Option Char :=
  if c = '"' then some '"'
  else if c = '\\' then some '\\'
  else if c = '/' then some '/'
  else if c = 'b' then some '\x08'
  else if c = 'f' then some '\x0c'
  else if c = 'n' then some '\n'
  else if c = 'r' then some '\r'
  else if c = 't' then some '\t'
  else none

def hexDigit? (c : Char) : Option Nat :=
  if '0' ≤ c ∧ c ≤ '9' then some (c.toNat - '0'.toNat)
  else if 'a' ≤ c ∧ c ≤ 'f' then some (c.toNat - 'a'.toNat + 10)
  else if 'A' ≤ c ∧ c ≤ 'F' then some (c.toNat - 'A'.toNat + 10)
  else none

def hexNumber? (a b c d : Char) : Option Nat := do
  let a ← hexDigit? a
  let b ← hexDigit? b
  let c ← hexDigit? c
  let d ← hexDigit? d
  some (((a * 16 + b) * 16 + c) * 16 + d)

/-- The fault where four hexadecimal digits should stand: four bytes are looked at, whatever they are. -/
def noHexNumber (rest : List Char) : Fault :=
  if byteCount rest < 4 then Problem.stringEnds.before [] else ⟨.grammar .badEscape, byteCount rest - 4⟩

def hexNumber : Reader Nat
  | rest@(a :: b :: c :: d :: after) =>
    match hexNumber? a b c d with
    | some n => .ok (n, after)
    | none => .error (noHexNumber rest)
  | rest => .error (noHexNumber rest)

def escapePart (c : Char) : Reader Unit
  | [] => .error (Problem.stringEnds.before [])
  | rest@(x :: after) => if x = c then .ok ((), after) else .error (Problem.endOfEscape.past rest)

def isHighSurrogate (n : Nat) : Bool :=
  0xD800 ≤ n && n ≤ 0xDBFF

def isLowSurrogate (n : Nat) : Bool :=
  0xDC00 ≤ n && n ≤ 0xDFFF

def surrogatePair (high low : Nat) : Char :=
  Char.ofNat (0x10000 + (high - 0xD800) * 0x400 + (low - 0xDC00))

/-- The rest of an escape by number, which takes two numbers for a character beyond 16 bits. -/
def unitEscape : Reader Char := fun rest => do
  let (n, rest) ← hexNumber rest
  if isLowSurrogate n then .error (Problem.loneSurrogate.before rest)
  else if isHighSurrogate n then do
    let ((), rest) ← escapePart '\\' rest
    let ((), rest) ← escapePart 'u' rest
    let (low, rest) ← hexNumber rest
    if isLowSurrogate low then .ok (surrogatePair n low, rest)
    else .error (Problem.loneSurrogate.before rest)
  else .ok (Char.ofNat n, rest)

def escape : Reader Char
  | [] => .error (Problem.stringEnds.before [])
  | rest@(c :: after) =>
    match plainEscape? c with
    | some x => .ok (x, after)
    | none => if c = 'u' then unitEscape after else .error (Problem.badEscape.past rest)

/-- The characters of a string up to its closing quote, in a text that is no longer than `bound`. -/
def chars : (bound : List Char) → Reader (List Char)
  | [], _ => .error (Problem.stringEnds.before [])
  | _ :: _, [] => .error (Problem.stringEnds.before [])
  | _ :: bound, c :: rest =>
    if c = '"' then .ok ([], rest)
    else if c = '\\' then do
      let (x, rest) ← escape rest
      let (xs, rest) ← chars bound rest
      .ok (x :: xs, rest)
    else if c.toNat < 0x20 then .error (Problem.controlCharacter.before rest)
    else do
      let (xs, rest) ← chars bound rest
      .ok (c :: xs, rest)

def string : Reader String := fun rest => do
  let (cs, rest) ← chars rest rest
  .ok (String.ofList cs, rest)

end SharpTree.Source
