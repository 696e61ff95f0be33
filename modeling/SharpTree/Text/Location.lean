/-! # Places in a text

Places are counted in bytes of a text's UTF-8 form, so one may lie inside a character. -/

namespace SharpTree

def utf8 (cs : List Char) : List UInt8 :=
  cs.flatMap String.utf8EncodeChar

def byteCount : List Char → Nat
  | [] => 0
  | c :: cs => c.utf8Size + byteCount cs

/-- A line, counted from 1, and the number of bytes that stand on it before the place. -/
structure Location where
  line : Nat
  column : Nat
deriving DecidableEq, Repr

namespace Location

def after (bytes : List UInt8) : Location where
  line := 1 + bytes.count 10
  column := (bytes.reverse.takeWhile (· != 10)).length

def leaving (text : List Char) (left : Nat) : Location :=
  after ((utf8 text).take (byteCount text - left))

end Location

end SharpTree
