import SharpTree.Decimal.Shortest
import SharpTree.Json.Value

/-! # Writing JSON values

One printer, with a style that says what stands before an item and between a name and its value. The compact
style writes no white space at all, the indented one puts every item on a line of its own. -/

namespace SharpTree.Json

/-- A character inside a written string. Only quotes, backslashes and control characters are escaped. -/
def escape (c : Char) : List Char :=
  if c = '"' then ['\\', '"']
  else if c = '\\' then ['\\', '\\']
  else if c = '\n' then ['\\', 'n']
  else if c = '\r' then ['\\', 'r']
  else if c = '\t' then ['\\', 't']
  else if c = '\x08' then ['\\', 'b']
  else if c = '\x0c' then ['\\', 'f']
  else if c.toNat < 0x20 then ['\\', 'u', '0', '0', Nat.digitChar (c.toNat / 16), Nat.digitChar (c.toNat % 16)]
  else [c]

def quote (s : String) : List Char :=
  '"' :: (s.toList.flatMap escape ++ ['"'])

/-- A decimal number in digits: positional if the point falls at most 16 digits after the first and at most four
places before it, and with a signed exponent otherwise. There is always a point or an exponent. -/
def decimalText (x : Shortest) : List Char :=
  let ds := Nat.toDigits 10 x.digits
  let point : Int := ds.length + x.exponent
  if 1 ≤ point && point ≤ 16 then
    let k := point.toNat
    if ds.length ≤ k then ds ++ List.replicate (k - ds.length) '0' ++ ['.', '0']
    else ds.take k ++ '.' :: ds.drop k
  else if -4 ≤ point && point ≤ 0 then
    ['0', '.'] ++ List.replicate (-point).toNat '0' ++ ds
  else
    let mantissa := match ds with
      | d :: e :: rest => d :: '.' :: e :: rest
      | short => short
    let power := point - 1
    mantissa ++ ['e', if power < 0 then '-' else '+'] ++ Nat.toDigits 10 power.natAbs

namespace Number

def floatText (x : Float) : List Char :=
  let digits := if x == 0 then ['0', '.', '0'] else decimalText (Shortest.ofBinary (Binary.ofFloat x))
  if Binary.signBit ≤ x.toBits.toNat then '-' :: digits else digits

def text : Number → List Char
  | .int z => if z < 0 then '-' :: Nat.toDigits 10 z.natAbs else Nat.toDigits 10 z.natAbs
  | .float x => floatText x

end Number

structure Style where
  /-- Stands before an item, or before the bracket that closes its container, at a level of nesting. -/
  gap : Nat → List Char
  space : List Char

def Style.compact : Style := ⟨fun _ => [], []⟩

def Style.indented : Style := ⟨fun level => '\n' :: List.replicate (2 * level) ' ', [' ']⟩

namespace Value

mutual
def print (style : Style) (level : Nat) : Value → List Char
  | .null => ['n', 'u', 'l', 'l']
  | .bool true => ['t', 'r', 'u', 'e']
  | .bool false => ['f', 'a', 'l', 's', 'e']
  | .num n => n.text
  | .str s => quote s
  | .arr [] => ['[', ']']
  | .arr (v :: vs) => '[' :: (style.gap (level + 1) ++ (print style (level + 1) v ++ printItems style level vs))
  | .obj [] => ['{', '}']
  | .obj ((k, v) :: ms) =>
    '{' :: (style.gap (level + 1) ++ (quote k ++ ':' :: (style.space ++
      (print style (level + 1) v ++ printMembers style level ms))))
def printItems (style : Style) (level : Nat) : List Value → List Char
  | [] => style.gap level ++ [']']
  | v :: vs => ',' :: (style.gap (level + 1) ++ (print style (level + 1) v ++ printItems style level vs))
def printMembers (style : Style) (level : Nat) : List (String × Value) → List Char
  | [] => style.gap level ++ ['}']
  | (k, v) :: ms =>
    ',' :: (style.gap (level + 1) ++ (quote k ++ ':' :: (style.space ++
      (print style (level + 1) v ++ printMembers style level ms))))
end

def compact (v : Value) : String :=
  String.ofList (v.print .compact 0)

def pretty (v : Value) : String :=
  String.ofList (v.print .indented 0)

end Value

end SharpTree.Json
