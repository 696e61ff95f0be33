/-! # Kinds of blocks -/

namespace SharpTree

inductive BlockKind where
  | code
  | decl
deriving DecidableEq, Repr

namespace BlockKind

/-- Every name but `code` stands for a block of declarations. -/
def ofName (name : String) : BlockKind :=
  if name = "code" then .code else .decl

def name : BlockKind → String
  | .code => "code"
  | .decl => "decl"

def isCode : BlockKind → Bool
  | .code => true
  | .decl => false

end BlockKind

end SharpTree
