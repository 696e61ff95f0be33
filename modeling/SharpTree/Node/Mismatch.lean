import SharpTree.Json.Printer
import SharpTree.Node.Schema
import SharpTree.Text.Quoted

/-! # Values that are no trees

The reasons for which a value cannot be read as a tree, and how they are told. -/

namespace SharpTree

open Json (Number Value)

inductive Found where
  | null
  | bool (value : Bool)
  | number (value : Number)
  | text (value : String)
  | list
  | object
deriving DecidableEq

def Json.Value.found : Value → Found
  | .null => .null
  | .bool b => .bool b
  | .num n => .number n
  | .str s => .text s
  | .arr _ => .list
  | .obj _ => .object

def Found.message : Found → String
  | null => "null"
  | bool true => "boolean `true`"
  | bool false => "boolean `false`"
  | number (.int z) => "integer `" ++ String.ofList (Number.text (.int z)) ++ "`"
  | number (.float x) => "floating point `" ++ String.ofList (Number.text (.float x)) ++ "`"
  | text s => "string " ++ quoted s
  | list => "sequence"
  | object => "map"

def Shape.message : Shape → String
  | kind => "variant identifier"
  | nothing => "unit"
  | node | optionalNode => "internally tagged enum Node"
  | nodes | optionalNodes | modifiers => "a sequence"
  | declarator => "struct Declarator"
  | accessors => "a map"
  | blockKind => "string or map"
  | text => "a string"
  | literal => "any value"

inductive Mismatch where
  | unexpected (found : Found) (expected : Shape)
  | notSingle
  | missing (field : String)
  | repeated (field : String)
  /-- A list ends before the field at position `given` of a node. -/
  | short (given : Nat) (kind : Kind)
  | long (given wanted : Nat)
deriving DecidableEq

namespace Mismatch

def elements (n : Nat) : String :=
  if n = 1 then "1 element" else s!"{n} elements"

def listing (kind : Kind) : String :=
  let fields := elements kind.fields.length
  if kind = .declarator then s!"struct Declarator with {fields}"
  else "struct variant Node::" ++ kind.name ++ " with " ++ fields

def message : Mismatch → String
  | unexpected found expected => "invalid type: " ++ found.message ++ ", expected " ++ expected.message
  | notSingle => "invalid value: map, expected map with a single key"
  | missing field => s!"missing field `{field}`"
  | repeated field => s!"duplicate field `{field}`"
  | short given kind => s!"invalid length {given}, expected " ++ listing kind
  | long given wanted => s!"invalid length {given}, expected " ++ elements wanted ++ " in sequence"

end Mismatch

end SharpTree
