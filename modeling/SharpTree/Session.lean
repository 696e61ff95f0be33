import SharpTree.CodeUnit
import SharpTree.Loader
import SharpTree.Node.Writer

/-! # Sessions

A session keeps a tree and a place in it, a generator, the last unit and a file tree, and takes one step after the
other. A step that fails leaves the rest of the session as it was. -/

namespace SharpTree

structure Summary where
  kind : Kind
  nodes : Nat
  unsupported : Nat
  children : List Kind
deriving DecidableEq, Repr

def Node.summary (n : Node) : Summary where
  kind := n.kind
  nodes := n.nodeCount
  unsupported := n.unsupportedCount
  children := n.children.map (·.kind)

structure Session where
  generator : Generator
  stack : List Node
  unit? : Option CodeUnit
  files : Files

inductive Step where
  | parse (source : String)
  | load (path : String)
  | loadName (path : String)
  | directive (name : String)
  | generator
  | child (index : Nat)
  | up
  | describe
  | emit
  | json
  | pretty
  | roundTrip
  | generate (name : String)
  | newUnit (fileName content : String)
  | takeUnit
  | write (path : String)
  | read (path : String)
deriving DecidableEq, Repr

inductive Answer where
  | summary (value : Summary)
  | done
  | generator (value : Generator)
  | text (value : String)
  | json (value : String)
  | equal (value : Bool)
  | unit (value : CodeUnit) (same : Bool)
  | content (value : String)
  | noContent
  | parseError (reason : ParseError)
  | loadError (reason : LoadError)
  | unitError (reason : UnitError)
  | noTree
  | noChild
  | noParent
  | noUnit

namespace Session

def start (files : Files) : Session where
  generator := .plain
  stack := []
  unit? := none
  files := files

def report (s : Session) (a : Answer) (events : List Event) : Session × Logged Answer :=
  (s, ⟨a, events⟩)

def answer (s : Session) (a : Answer) : Session × Logged Answer :=
  s.report a []

def enter (s : Session) (n : Node) (events : List Event) : Session × Logged Answer :=
  ({ s with stack := [n] }, ⟨.summary n.summary, events⟩)

def keep (s : Session) (u : CodeUnit) (events : List Event) : Session × Logged Answer :=
  ({ s with unit? := some u }, ⟨.unit u (s.unit? = some u), events⟩)

def loadWith (s : Session) (parser : Parser) (path : String) : Session × Logged Answer :=
  match parser.load s.files path with
  | ⟨.ok n, events⟩ => s.enter n events
  | ⟨.error e, events⟩ => s.report (.loadError e) events

def onNode (s : Session) (act : Node → Session × Logged Answer) : Session × Logged Answer :=
  match s.stack with
  | n :: _ => act n
  | [] => s.answer .noTree

def onUnit (s : Session) (act : CodeUnit → Session × Logged Answer) : Session × Logged Answer :=
  match s.unit? with
  | some u => act u
  | none => s.answer .noUnit

def step (s : Session) : Step → Session × Logged Answer
  | .parse source =>
    match Parser.json source with
    | ⟨.ok n, events⟩ => s.enter n events
    | ⟨.error e, events⟩ => s.report (.parseError e) events
  | .load path => s.loadWith .json path
  | .loadName path => s.loadWith .name path
  | .directive name =>
    match s.generator.withDirective name with
    | .ok g => { s with generator := g }.answer .done
    | .error e => { s with generator := .plain }.answer (.unitError e)
  | .generator => s.answer (.generator s.generator)
  | .child index => s.onNode fun n =>
    match n.children[index]? with
    | some c => { s with stack := c :: s.stack }.answer (.summary c.summary)
    | none => s.answer .noChild
  | .up =>
    match s.stack with
    | _ :: n :: above => { s with stack := n :: above }.answer (.summary n.summary)
    | _ => s.answer .noParent
  | .describe => s.onNode fun n => s.answer (.summary n.summary)
  | .emit => s.onNode fun n => s.report (.text n.render) (n.warnings.map .warned)
  | .json => s.onNode fun n => s.answer (.json n.toValue.compact)
  | .pretty => s.onNode fun n => s.answer (.json n.toValue.pretty)
  | .roundTrip => s.onNode fun n =>
    match Parser.json n.toValue.compact with
    | ⟨.ok m, events⟩ => s.report (.equal (m == n)) events
    | ⟨.error e, events⟩ => s.report (.parseError e) events
  | .generate name => s.onNode fun n =>
    let ⟨u, events⟩ := s.generator.generate n name
    s.keep u events
  | .newUnit fileName content => s.keep ⟨fileName, content⟩ []
  | .takeUnit => s.onUnit fun u => { s with unit? := none }.answer (.content u.content)
  | .write path => s.onUnit fun u =>
    match u.write path s.files with
    | (files, ⟨.ok (), events⟩) => { s with files := files }.report .done events
    | (files, ⟨.error e, events⟩) => { s with files := files }.report (.unitError e) events
  | .read path =>
    match (s.files.read? path).bind String.fromUTF8? with
    | some text => s.answer (.content text)
    | none => s.answer .noContent

def run (s : Session) : List Step → List (Logged Answer)
  | [] => []
  | step :: steps =>
    let (s, a) := s.step step
    a :: s.run steps

end Session

end SharpTree
