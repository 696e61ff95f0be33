import SharpTree.CodeUnit
import SharpTree.Command.Arguments
import SharpTree.Loader
import SharpTree.Node.Writer

/-! # Running the command

The command loads one tree and renders it or reports on it. Nothing is printed before everything that can fail has
succeeded. -/

namespace SharpTree.Command

structure Outcome where
  status : Nat
  stdout : String
  stderr : String
deriving DecidableEq, Repr

inductive Paint where
  | error
  | success
  | warning
  | heading
deriving DecidableEq, Repr

def Paint.code : Paint → String
  | error => "1;31"
  | success => "1;32"
  | warning => "1;33"
  | heading => "1;4"

def Paint.apply (p : Paint) (color : Bool) (text : String) : String :=
  if color then "\x1b[" ++ p.code ++ "m" ++ text ++ "\x1b[0m" else text

inductive Failure where
  | load (path : String) (reason : LoadError)
  | sourceName (reason : UnitError)
  | write (path : String) (reason : UnitError)
deriving DecidableEq

namespace Failure

def inner : Failure → List String
  | load _ (.parse _ reason) => [reason.message]
  | write _ (.file reason) => [reason.message]
  | _ => []

def message : Failure → String
  | f@(load path reason) => ": ".intercalate (s!"Failed to load tree '{path}'" :: reason.message :: f.inner)
  | f@(sourceName reason) => ": ".intercalate ("Invalid --source-name" :: reason.message :: f.inner)
  | f@(write path reason) => ": ".intercalate (s!"Failed to write to '{path}'" :: reason.message :: f.inner)

def outcome (color : Bool) (f : Failure) : Outcome where
  status := 1
  stdout := ""
  stderr := Paint.error.apply color "error:" ++ " " ++ f.message ++ "\n"

end Failure

def generatorFor (directive : Bool) (sourceName : String) : Except Failure Generator :=
  if directive then (Generator.plain.withDirective sourceName).mapError .sourceName else .ok .plain

def placeholderNotice (color : Bool) (tree : Node) : String :=
  if tree.unsupportedCount = 0 then ""
  else Paint.warning.apply color "warning:" ++
    s!" {tree.unsupportedCount} unsupported node(s) rendered as placeholders\n"

def writtenOutcome (color : Bool) (tree : Node) (u : CodeUnit) (path : String) : Outcome where
  status := 0
  stdout := ""
  stderr := Paint.success.apply color "✓" ++ s!" Generated {u.fileName} → {path}\n" ++ placeholderNotice color tree

def printedOutcome (color : Bool) (tree : Node) (u : CodeUnit) : Outcome where
  status := 0
  stdout := u.content
  stderr := placeholderNotice color tree

def plan (tree : String) (directive : Bool) (sourceName : String) (loaded : Except LoadError Node) :
    Except Failure (Node × CodeUnit) := do
  let n ← loaded.mapError (.load tree)
  let g ← generatorFor directive sourceName
  .ok (n, (g.generate n tree).result)

def emit (color : Bool) (fs : Files) (tree : String) (output : Option String) (directive : Bool)
    (sourceName : String) : Files × Outcome :=
  match plan tree directive sourceName (Parser.json.load fs tree).result with
  | .error f => (fs, f.outcome color)
  | .ok (n, u) =>
    match output with
    | none => (fs, printedOutcome color n u)
    | some path =>
      match u.write path fs with
      | (fs, ⟨.ok (), _⟩) => (fs, writtenOutcome color n u path)
      | (fs, ⟨.error e, _⟩) => (fs, (Failure.write path e).outcome color)

def report (color : Bool) (tree : Node) (dumpTree : Bool) : String :=
  Paint.heading.apply color "Tree Info" ++
    s!"\n  Root:        {tree.kind.name}\n  Nodes:       {tree.nodeCount}\n" ++
    s!"  Unsupported: {tree.unsupportedCount}\n\n" ++
    (if dumpTree then tree.toValue.pretty ++ "\n\n" else "") ++
    (if tree.unsupportedCount = 0 then
      Paint.success.apply color "✓" ++ " Every node has a C# rendering\n"
    else
      Paint.error.apply color "✗" ++ s!" {tree.unsupportedCount} node(s) will be emitted as placeholders\n")

def checkOutcome (color : Bool) (tree : String) (dumpTree : Bool) (loaded : Except LoadError Node) : Outcome :=
  match loaded with
  | .error e => (Failure.load tree e).outcome color
  | .ok n =>
    { status := if n.unsupportedCount = 0 then 0 else 1, stdout := report color n dumpTree, stderr := "" }

def check (color : Bool) (fs : Files) (tree : String) (dumpTree : Bool) : Outcome :=
  checkOutcome color tree dumpTree (Parser.json.load fs tree).result

def usage : String :=
  "usage: kusa emit TREE [-o FILE] [--line-directive] [--source-name NAME]\n" ++
  "       kusa check TREE [--dump-tree]\n"

def run (color : Bool) (fs : Files) (request : Request) : Files × Outcome :=
  match request with
  | .emit tree output directive sourceName => emit color fs tree output directive sourceName
  | .check tree dumpTree => (fs, check color fs tree dumpTree)
  | .version program => (fs, ⟨0, program ++ " 0.1.0\n", ""⟩)
  | .help => (fs, ⟨0, usage, ""⟩)
  | .misuse => (fs, ⟨2, "", usage⟩)

end SharpTree.Command
