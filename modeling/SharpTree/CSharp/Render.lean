import SharpTree.CSharp.Keyword
import SharpTree.Json.Printer
import SharpTree.Node.Basic

/-! # Trees as C# text

The text of a node is put together from the texts of its children. Nothing is escaped or put in parentheses. -/

namespace SharpTree

structure Fragment where
  text : String
  closed : Bool
deriving DecidableEq, Repr

def Json.Value.raw : Json.Value → String
  | .str s => s
  | v => v.compact

/-- The modifiers before a declaration. A list without members still leaves the blank after it. -/
def modifierText : Option (List Modifier) → String
  | none => ""
  | some ms => " ".intercalate (ms.map (·.keyword)) ++ " "

def statementText (kind : BlockKind) (s : Fragment) : String :=
  if kind.isCode && !s.closed then s.text ++ ";\n" else s.text ++ "\n"

def accessorText (a : Accessor) (body : Fragment) : String :=
  a.keyword ++ " " ++ body.text ++ "\n"

namespace Form

def text : Form Fragment → String
  | program body => String.join (body.map (·.text ++ "\n"))
  | block kind body => "\x7b\n" ++ String.join (body.map (statementText kind)) ++ "\x7d"
  | typeDecl ms name body => modifierText ms ++ "class " ++ name.text ++ " " ++ body.text ++ "\n"
  | function ms result name params body =>
    modifierText ms ++ (result.elim "void" (·.text)) ++ " " ++ name.text ++ "(" ++
      ", ".intercalate (params.map (·.text)) ++ ") " ++ body.text
  | declarator d => d.varType.text ++ " " ++ d.varName.text ++ d.value.elim "" (" = " ++ ·.text)
  | localVar d => d.text
  | member ms d => modifierText ms ++ d.text ++ ";"
  | property ms d accessors =>
    modifierText ms ++ d.varType.text ++ " " ++ d.varName.text ++ " \x7b\n" ++
      "\n".intercalate (accessors.map fun (a, body) => accessorText a body) ++ "\x7d" ++
      d.value.elim "" (" = " ++ ·.text ++ ";")
  | identifier name => name
  | path curr next => curr.text ++ next.elim "" ("." ++ ·.text)
  | importing target => "using " ++ target.text ++ ";"
  | call callee args => callee.text ++ "(" ++ ",".intercalate (args.map (·.text)) ++ ")"
  | access left right => left.text ++ "." ++ right.text
  | index source position => source.text ++ "[" ++ position.text ++ "]"
  | arrayOf target => target.text ++ "[]"
  | creation target => "new " ++ target.text
  | assignment dest source => dest.text ++ " = " ++ source.text
  | operation left op right => left.text ++ " " ++ op ++ " " ++ right.text
  | stringLit v => "\"" ++ v.raw ++ "\""
  | numberLit v | booleanLit v => v.raw
  | conditional c body => "if (" ++ c.text ++ ") " ++ body.text
  | loop c body => "while (" ++ c.text ++ ") " ++ body.text
  | returning v => "return " ++ v.text
  | unsupported => placeholder

def endsWithBody {ν : Type} : Form ν → Bool
  | conditional .. | loop .. => true
  | _ => false

end Form

namespace Node

def fragment : Node → Fragment :=
  fold fun f => ⟨f.text, f.endsWithBody⟩

def render (n : Node) : String :=
  n.fragment.text

end Node

end SharpTree
