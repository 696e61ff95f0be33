import SharpTree.Node.Basic
import SharpTree.Node.Kind

/-! # Fields of nodes

Each kind of node has named fields in a fixed order, and each field a shape that says what it holds. A form is
the same thing as its kind together with a record of its fields, so that reading and writing trees is
said once for every shape, and not for every kind. -/

namespace SharpTree

/-- What a value may be asked to be: the contents of a field, or one of the words around the fields. -/
inductive Shape where
  | kind
  | nothing
  | node
  | optionalNode
  | nodes
  | optionalNodes
  | declarator
  | accessors
  | modifiers
  | blockKind
  | text
  | literal
deriving DecidableEq, Repr

namespace Shape

@[reducible] def Carrier (ν : Type) : Shape → Type
  | kind => Kind
  | nothing => Unit
  | node => ν
  | optionalNode => Option ν
  | nodes => List ν
  | optionalNodes => List ν
  | declarator => Declarator ν
  | accessors => List (Accessor × ν)
  | modifiers => Option (List Modifier)
  | blockKind => BlockKind
  | text => String
  | literal => Json.Value

def absent? (ν : Type) : (s : Shape) → Option (s.Carrier ν)
  | optionalNode => some none
  | optionalNodes => some []
  | accessors => some []
  | modifiers => some none
  | blockKind => some .decl
  | kind | nothing | node | nodes | declarator | text | literal => none

end Shape

structure Field where
  name : String
  shape : Shape
deriving DecidableEq, Repr

@[reducible] def Record (ν : Type) : List Field → Type
  | [] => Unit
  | f :: fs => f.shape.Carrier ν × Record ν fs

namespace Declarator

variable {ν : Type}

@[reducible] def fields : List Field :=
  [⟨"varType", .node⟩, ⟨"varName", .node⟩, ⟨"defaultValue", .optionalNode⟩]

def ofRecord : Record ν fields → Declarator ν
  | (varType, varName, value, ()) => ⟨varType, varName, value⟩

def toRecord (d : Declarator ν) : Record ν fields :=
  (d.varType, d.varName, d.value, ())

end Declarator

@[reducible] def Kind.fields : Kind → List Field
  | program => [⟨"body", .nodes⟩]
  | block => [⟨"blockType", .blockKind⟩, ⟨"value", .nodes⟩]
  | typeDecl => [⟨"modifiers", .modifiers⟩, ⟨"typeName", .node⟩, ⟨"body", .node⟩]
  | function =>
    [⟨"modifiers", .modifiers⟩, ⟨"returnType", .optionalNode⟩, ⟨"functionName", .node⟩,
      ⟨"argList", .optionalNodes⟩, ⟨"body", .node⟩]
  | declarator => Declarator.fields
  | localVar => [⟨"declarator", .node⟩]
  | member => [⟨"modifiers", .modifiers⟩, ⟨"declarator", .node⟩]
  | property => [⟨"modifiers", .modifiers⟩, ⟨"declarator", .declarator⟩, ⟨"content", .accessors⟩]
  | identifier => [⟨"value", .text⟩]
  | path => [⟨"curr", .node⟩, ⟨"next", .optionalNode⟩]
  | importing => [⟨"target", .node⟩]
  | call => [⟨"callee", .node⟩, ⟨"args", .optionalNodes⟩]
  | access => [⟨"left", .node⟩, ⟨"right", .node⟩]
  | index => [⟨"src", .node⟩, ⟨"index", .node⟩]
  | arrayOf => [⟨"target", .node⟩]
  | creation => [⟨"target", .node⟩]
  | assignment => [⟨"dest", .node⟩, ⟨"src", .node⟩]
  | operation => [⟨"left", .node⟩, ⟨"operator", .text⟩, ⟨"right", .node⟩]
  | stringLit => [⟨"value", .literal⟩]
  | numberLit => [⟨"value", .literal⟩]
  | booleanLit => [⟨"value", .literal⟩]
  | conditional => [⟨"condition", .node⟩, ⟨"body", .node⟩]
  | loop => [⟨"condition", .node⟩, ⟨"body", .node⟩]
  | returning => [⟨"value", .node⟩]
  | unsupported => []

namespace Form

variable {ν : Type}

def ofRecord : (k : Kind) → Record ν k.fields → Form ν
  | .program, (body, ()) => program body
  | .block, (kind, body, ()) => block kind body
  | .typeDecl, (ms, name, body, ()) => typeDecl ms name body
  | .function, (ms, result, name, params, body, ()) => function ms result name params body
  | .declarator, r => declarator (.ofRecord r)
  | .localVar, (d, ()) => localVar d
  | .member, (ms, d, ()) => member ms d
  | .property, (ms, d, accessors, ()) => property ms d accessors
  | .identifier, (name, ()) => identifier name
  | .path, (curr, next, ()) => path curr next
  | .importing, (target, ()) => importing target
  | .call, (callee, args, ()) => call callee args
  | .access, (left, right, ()) => access left right
  | .index, (source, position, ()) => index source position
  | .arrayOf, (target, ()) => arrayOf target
  | .creation, (target, ()) => creation target
  | .assignment, (dest, source, ()) => assignment dest source
  | .operation, (left, op, right, ()) => operation left op right
  | .stringLit, (v, ()) => stringLit v
  | .numberLit, (v, ()) => numberLit v
  | .booleanLit, (v, ()) => booleanLit v
  | .conditional, (c, body, ()) => conditional c body
  | .loop, (c, body, ()) => loop c body
  | .returning, (v, ()) => returning v
  | .unsupported, () => unsupported

def toRecord : (f : Form ν) → Record ν f.kind.fields
  | program body => (body, ())
  | block kind body => (kind, body, ())
  | typeDecl ms name body => (ms, name, body, ())
  | function ms result name params body => (ms, result, name, params, body, ())
  | declarator d => d.toRecord
  | localVar d => (d, ())
  | member ms d => (ms, d, ())
  | property ms d accessors => (ms, d, accessors, ())
  | identifier name => (name, ())
  | path curr next => (curr, next, ())
  | importing target => (target, ())
  | call callee args => (callee, args, ())
  | access left right => (left, right, ())
  | index source position => (source, position, ())
  | arrayOf target => (target, ())
  | creation target => (target, ())
  | assignment dest source => (dest, source, ())
  | operation left op right => (left, op, right, ())
  | stringLit v => (v, ())
  | numberLit v => (v, ())
  | booleanLit v => (v, ())
  | conditional c body => (c, body, ())
  | loop c body => (c, body, ())
  | returning v => (v, ())
  | unsupported => ()

theorem ofRecord_toRecord (f : Form ν) : ofRecord f.kind f.toRecord = f := by
  cases f <;> rfl

theorem kind_ofRecord (k : Kind) (r : Record ν k.fields) : (ofRecord k r).kind = k := by
  cases k <;> rfl

end Form

namespace Node

def kind (n : Node) : Kind :=
  n.form.kind

end Node

end SharpTree
