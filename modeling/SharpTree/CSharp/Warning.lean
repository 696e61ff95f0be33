import SharpTree.Node.Basic

/-! # Warnings

What a rendering cannot express is warned about, in the order in which the parts of a tree are evaluated. That is
not always the order of their texts: a function evaluates its result type and parameters first, a property its
accessors, and a call its arguments. -/

namespace SharpTree

inductive Warning where
  | accessor (key : String)
  | modifier (token : String)
  | unsupported
deriving DecidableEq, Repr

namespace Warning

/-- An accessor is warned about unless its key is one of the two usual ones. -/
def ofAccessor (a : Accessor) : List Warning :=
  if a.key = "get" ∨ a.key = "set" then [] else [accessor a.key]

def ofModifier : Modifier → List Warning
  | .other token => [modifier token]
  | _ => []

def ofModifiers (ms : Option (List Modifier)) : List Warning :=
  (ms.getD []).flatMap ofModifier

end Warning

namespace Form

def warnings : Form (List Warning) → List Warning
  | typeDecl ms name body => Warning.ofModifiers ms ++ name ++ body
  | function ms result name params body =>
    result.getD [] ++ params.flatten ++ Warning.ofModifiers ms ++ name ++ body
  | member ms d => Warning.ofModifiers ms ++ d
  | property ms d accessors =>
    accessors.flatMap (fun (a, body) => Warning.ofAccessor a ++ body) ++ Warning.ofModifiers ms ++
      d.varType ++ d.varName ++ d.value.getD []
  | call callee args => args.flatten ++ callee
  | unsupported => [.unsupported]
  | f => f.children.flatten

end Form

def Node.warnings : Node → List Warning :=
  fold Form.warnings

end SharpTree
