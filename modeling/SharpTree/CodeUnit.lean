import SharpTree.CSharp.Render
import SharpTree.Event
import SharpTree.Files.Basic
import SharpTree.Text.Quoted

/-! # Units of generated code

A unit is the C# text of a whole tree with a file name, which is made from the name of the tree's own source. The
text may begin with a directive that names the source. -/

namespace SharpTree

/-- The name of the file for a source: its stem without dots, and the extension of the language. -/
def unitFileName (source extension : String) : String :=
  let base := ((Path.ofString source).fileStem?).getD "out"
  String.ofList (base.toList.map fun c => if c = '.' then '_' else c) ++ "." ++ extension

def lineDirective (file : String) (line : Nat) : String :=
  s!"#line {line} \"" ++ file ++ "\"\n"

/-- Whether a directive can name a source so: there is a name, and it does not end the directive. -/
def isSourceName (name : String) : Bool :=
  name ≠ "" && !name.toList.any fun c => c = '"' || c = '\n' || c = '\r'

structure SourceName where
  text : String
  valid : isSourceName text = true

structure CodeUnit where
  fileName : String
  content : String
deriving DecidableEq, Repr

inductive UnitError where
  | invalidSourceName (name : String)
  | file (reason : FileError)
deriving DecidableEq, Repr

def UnitError.message : UnitError → String
  | invalidSourceName name => "invalid source name for line directive: " ++ quoted name
  | file reason => "IO error: " ++ reason.message

structure Generator where
  directive : Option SourceName

namespace Generator

def plain : Generator := ⟨none⟩

def withDirective (g : Generator) (name : String) : Except UnitError Generator :=
  if h : isSourceName name = true then .ok { g with directive := some ⟨name, h⟩ }
  else .error (.invalidSourceName name)

def heading (g : Generator) : String :=
  g.directive.elim "" fun name => lineDirective name.text 1

def extension : String := "cs"

def language : String := "C#"

def generate (g : Generator) (tree : Node) (source : String) : Logged CodeUnit :=
  let u : CodeUnit := ⟨unitFileName source extension, g.heading ++ tree.render⟩
  ⟨u, tree.warnings.map .warned ++ [.generated u.fileName u.content.utf8ByteSize]⟩

def shown (g : Generator) : String :=
  let directive := match g.directive with
    | none => "None"
    | some name => "Some(" ++ quoted name.text ++ ")"
  "CodeGenerator \x7b target: CSharp, line_directive: " ++ directive ++ " \x7d"

end Generator

namespace CodeUnit

def write (u : CodeUnit) (path : String) (fs : Files) : Files × Logged (Except UnitError Unit) :=
  match fs.write path u.content.toUTF8 with
  | (fs, .ok ()) => (fs, ⟨.ok (), [.wrote path u.content.utf8ByteSize]⟩)
  | (fs, .error e) => (fs, ⟨.error (.file e), []⟩)

end CodeUnit

end SharpTree
