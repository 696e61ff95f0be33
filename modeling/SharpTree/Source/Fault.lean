import SharpTree.Node.Mismatch
import SharpTree.Text.Location

/-! # Faults in a text

A fault has a cause and a place. The place is kept as the number of bytes that follow it: a reader only knows what
is left of its text, and the whole text turns that number into a line and a column. -/

namespace SharpTree

inductive Problem where
  | valueEnds
  | listEnds
  | objectEnds
  | stringEnds
  | noValue
  | noWord
  | noListEnd
  | noObjectEnd
  | noColon
  | noKey
  | trailingComma
  | controlCharacter
  | badEscape
  | endOfEscape
  | loneSurrogate
  | badNumber
  | outOfRange
  | trailingCharacters
deriving DecidableEq, Repr

def Problem.message : Problem → String
  | valueEnds => "EOF while parsing a value"
  | listEnds => "EOF while parsing a list"
  | objectEnds => "EOF while parsing an object"
  | stringEnds => "EOF while parsing a string"
  | noValue => "expected value"
  | noWord => "expected ident"
  | noListEnd => "expected `,` or `]`"
  | noObjectEnd => "expected `,` or `\x7d`"
  | noColon => "expected `:`"
  | noKey => "key must be a string"
  | trailingComma => "trailing comma"
  | controlCharacter => "control character (\\u0000-\\u001F) found while parsing a string"
  | badEscape => "invalid escape"
  | endOfEscape => "unexpected end of hex escape"
  | loneSurrogate => "lone leading surrogate in hex escape"
  | badNumber => "invalid number"
  | outOfRange => "number out of range"
  | trailingCharacters => "trailing characters"

inductive Cause where
  | grammar (problem : Problem)
  | tooDeep
  | mismatch (reason : Mismatch)
deriving DecidableEq

/-- A reason, and the number of bytes that follow its place. -/
structure Fault where
  cause : Cause
  left : Nat
deriving DecidableEq

def Cause.before (c : Cause) (rest : List Char) : Fault :=
  ⟨c, byteCount rest⟩

def Problem.before (p : Problem) (rest : List Char) : Fault :=
  (Cause.grammar p).before rest

def Mismatch.before (m : Mismatch) (rest : List Char) : Fault :=
  (Cause.mismatch m).before rest

/-- The fault whose place is right after the first byte of the rest, or at the end if nothing is left. -/
def Problem.past (p : Problem) (rest : List Char) : Fault :=
  ⟨.grammar p, byteCount rest - 1⟩

abbrev Reader (α : Type) := List Char → Except Fault (α × List Char)

end SharpTree
