import SharpTree.CSharp.Warning
import SharpTree.Node.Kind

/-! # Events

What the operations report while they run, besides their results. -/

namespace SharpTree

inductive Event where
  | parsed (root : Kind) (nodes : Nat)
  | loading (path : String) (bytes : Nat)
  | generated (file : String) (bytes : Nat)
  | wrote (path : String) (bytes : Nat)
  | warned (warning : Warning)
deriving DecidableEq, Repr

inductive Level where
  | debug
  | warn
deriving DecidableEq, Repr

inductive Detail where
  | text (value : String)
  | count (value : Nat)
deriving DecidableEq, Repr

namespace Event

def level : Event → Level
  | warned _ => .warn
  | _ => .debug

def message : Event → String
  | parsed .. => "parsed syntax tree"
  | loading .. => "loading tree"
  | generated .. => "generated unit"
  | wrote .. => "wrote unit"
  | warned (.accessor _) => "non-standard property accessor"
  | warned (.modifier _) => "no C# translation for modifier"
  | warned .unsupported => "unsupported node, emitting placeholder"

def details : Event → List (String × Detail)
  | parsed root nodes => [("root", .text root.name), ("nodes", .count nodes)]
  | loading path bytes => [("path", .text path), ("bytes", .count bytes)]
  | generated file bytes => [("target_lang", .text "C#"), ("file", .text file), ("bytes", .count bytes)]
  | wrote path bytes => [("path", .text path), ("bytes", .count bytes)]
  | warned (.accessor key) => [("accessor", .text key)]
  | warned (.modifier token) => [("modifier", .text token)]
  | warned .unsupported => []

end Event

structure Logged (α : Type) where
  result : α
  events : List Event

end SharpTree
