import SharpTree.Source.Fault

/-! # Refused texts -/

namespace SharpTree

/-- The number of levels that a message about nesting names. -/
def maxNesting : Nat := 128

inductive ParseError where
  | empty
  | grammar (problem : Problem) (place : Location)
  | tooDeep (place : Location)
  /-- The text is JSON but not a tree. The place is known only for what is wrong with the outermost node itself. -/
  | mismatch (reason : Mismatch) (place : Option Location)
deriving DecidableEq

namespace ParseError

def ofFault (text : List Char) (f : Fault) : ParseError :=
  let place := Location.leaving text f.left
  match f.cause with
  | .grammar p => .grammar p place
  | .tooDeep => .tooDeep place
  | .mismatch m => .mismatch m (some place)

/-- The place of an error. One that is not known is told as line 0, column 0. -/
def location? : ParseError → Option Location
  | empty => none
  | grammar _ place | tooDeep place => some place
  | mismatch _ place => some (place.getD ⟨0, 0⟩)

def message : ParseError → String
  | empty => "empty input"
  | grammar p ⟨line, column⟩ =>
    s!"syntax error at line {line}, column {column}: " ++ p.message ++ s!" at line {line} column {column}"
  | tooDeep ⟨line, column⟩ => s!"tree nested deeper than {maxNesting} levels at line {line}, column {column}"
  | mismatch m none => "malformed tree at line 0, column 0: " ++ m.message
  | mismatch m (some ⟨line, column⟩) =>
    s!"malformed tree at line {line}, column {column}: " ++ m.message ++ s!" at line {line} column {column}"

end ParseError

end SharpTree
