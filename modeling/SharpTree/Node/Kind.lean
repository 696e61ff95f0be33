import SharpTree.Node.Form

/-! # Kinds of nodes

Every form has a kind, and every kind a name and a number that stand for it in the text of a tree. -/

namespace SharpTree

inductive Kind where
  | program
  | block
  | typeDecl
  | function
  | declarator
  | localVar
  | member
  | property
  | identifier
  | path
  | importing
  | call
  | access
  | index
  | arrayOf
  | creation
  | assignment
  | operation
  | stringLit
  | numberLit
  | booleanLit
  | conditional
  | loop
  | returning
  | unsupported
deriving DecidableEq, Repr

namespace Kind

def all : List Kind :=
  [program, block, typeDecl, function, declarator, localVar, member, property, identifier, path, importing, call,
    access, index, arrayOf, creation, assignment, operation, stringLit, numberLit, booleanLit, conditional, loop,
    returning, unsupported]

def name : Kind → String
  | program => "Ast"
  | block => "Block"
  | typeDecl => "TypeDeclaration"
  | function => "FunctionDeclaration"
  | declarator => "VariableDeclarator"
  | localVar => "VariableDeclaration"
  | member => "MemberDeclaration"
  | property => "PropertyDeclaration"
  | identifier => "Identifier"
  | path => "StaticAccess"
  | importing => "ImportStatement"
  | call => "Call"
  | access => "ExpressionAccess"
  | index => "ArrayAccessExpression"
  | arrayOf => "ArrayStaticAccess"
  | creation => "ObjectCreateExpression"
  | assignment => "Assignment"
  | operation => "InfixExpression"
  | stringLit => "StringLiteral"
  | numberLit => "NumberLiteral"
  | booleanLit => "BooleanLiteral"
  | conditional => "IfStatement"
  | loop => "WhileStatement"
  | returning => "ReturnStatement"
  | unsupported => "Unsupported"

/-- The kind of a name; a name that no kind has means a node that is not supported. -/
def ofName (name : String) : Kind :=
  (all.find? (·.name = name)).getD unsupported

def ofNumber (n : Nat) : Kind :=
  all[n]?.getD unsupported

end Kind

def Form.kind {ν : Type} : Form ν → Kind
  | program .. => .program
  | block .. => .block
  | typeDecl .. => .typeDecl
  | function .. => .function
  | declarator .. => .declarator
  | localVar .. => .localVar
  | member .. => .member
  | property .. => .property
  | identifier .. => .identifier
  | path .. => .path
  | importing .. => .importing
  | call .. => .call
  | access .. => .access
  | index .. => .index
  | arrayOf .. => .arrayOf
  | creation .. => .creation
  | assignment .. => .assignment
  | operation .. => .operation
  | stringLit .. => .stringLit
  | numberLit .. => .numberLit
  | booleanLit .. => .booleanLit
  | conditional .. => .conditional
  | loop .. => .loop
  | returning .. => .returning
  | unsupported => .unsupported

end SharpTree
