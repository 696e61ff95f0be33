import SharpTree.Node.Schema

/-! # Writing trees

A tree is written as an object with its kind first and its fields in order. Optional fields that hold nothing are
left out; lists of arguments and accessors are written even if they are empty. -/

namespace SharpTree

open Json (Value)

def Declarator.members (d : Declarator Value) : List (String × Value) :=
  ("varType", d.varType) :: ("varName", d.varName) :: d.value.toList.map (("defaultValue", ·))

/-- What is written for the contents of a field, if anything is. A declarator is written as the
node that it could be. -/
def Shape.write : (s : Shape) → s.Carrier Value → Option Value
  | kind, k => some (.str k.name)
  | nothing, () => some .null
  | node, v => some v
  | optionalNode, v => v
  | nodes, vs => some (.arr vs)
  | optionalNodes, vs => some (.arr vs)
  | declarator, d => some (.obj (("type", .str Kind.declarator.name) :: d.members))
  | accessors, as => some (.obj (as.map fun (a, v) => (a.key, v)))
  | modifiers, ms => ms.map fun ms => .arr (ms.map fun m => .str m.token)
  | blockKind, b => some (.str b.name)
  | text, s => some (.str s)
  | literal, v => some v

def Record.members : (fs : List Field) → Record Value fs → List (String × Value)
  | [], _ => []
  | f :: fs, (x, rest) =>
    match f.shape.write x with
    | some v => (f.name, v) :: Record.members fs rest
    | none => Record.members fs rest

def Form.write (f : Form Value) : Value :=
  .obj (("type", .str f.kind.name) :: Record.members f.kind.fields f.toRecord)

def Node.toValue : Node → Value :=
  Node.fold Form.write

end SharpTree
