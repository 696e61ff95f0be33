import SharpTree.Event
import SharpTree.Files.Basic
import SharpTree.Source.Tree

/-! # Trees in files -/

namespace SharpTree

abbrev Parser := String → Logged (Except ParseError Node)

namespace Parser

def json : Parser := fun source =>
  match Node.parse source with
  | .ok n => ⟨.ok n, [.parsed n.kind n.nodeCount]⟩
  | .error e => ⟨.error e, []⟩

def name : Parser := fun source =>
  match trimSpace source.toList with
  | [] => ⟨.error .empty, []⟩
  | cs => ⟨.ok (.ident (String.ofList cs)), []⟩

end Parser

inductive LoadError where
  | notFound (path : String)
  | notText (path : String)
  | parse (path : String) (reason : ParseError)
deriving DecidableEq

def LoadError.message : LoadError → String
  | notFound path => "Tree file not found: " ++ path
  | notText path => "I/O error reading " ++ path ++ ": stream did not contain valid UTF-8"
  | parse path reason => "Failed to parse " ++ path ++ ": " ++ reason.message

def Parser.decode (parser : Parser) (path : String) (content : ByteArray) : Logged (Except LoadError Node) :=
  match String.fromUTF8? content with
  | none => ⟨.error (.notText path), []⟩
  | some text =>
    let ⟨parsed, events⟩ := parser text
    let events := .loading path content.size :: events
    match parsed with
    | .ok n => ⟨.ok n, events⟩
    | .error e => ⟨.error (.parse path e), events⟩

def Parser.load (parser : Parser) (fs : Files) (path : String) : Logged (Except LoadError Node) :=
  match fs.read? path with
  | none => ⟨.error (.notFound path), []⟩
  | some content => parser.decode path content

end SharpTree
