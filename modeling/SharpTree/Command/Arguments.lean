/-! # Arguments of the command

The command has two subcommands, each with one path and some options. An option is given once at most. A value
stands right after its option, with or without an equals sign, or as the next argument; as an argument of its own
it does not begin with a hyphen. After `--` everything is a path. -/

namespace SharpTree.Command

structure Choice where
  name : String
  letter : Option Char
  takesValue : Bool
  mayBeEmpty : Bool
deriving DecidableEq, Repr

inductive Stop where
  | version
  | help
  | misuse
deriving DecidableEq, Repr

structure Given where
  path : Option String
  options : List (String × String)
deriving DecidableEq, Repr

namespace Given

def none : Given := ⟨.none, []⟩

def addPath (g : Given) (path : String) : Except Stop Given :=
  if path = "" || g.path.isSome then .error .misuse else .ok { g with path := some path }

def addOption (g : Given) (c : Choice) (value : String) : Except Stop Given :=
  if (g.options.lookup c.name).isSome || (value = "" && !c.mayBeEmpty) then .error .misuse
  else .ok { g with options := (c.name, value) :: g.options }

def addPaths (g : Given) : List String → Except Stop Given
  | [] => .ok g
  | path :: rest => do
    let g ← g.addPath path
    g.addPaths rest

end Given

inductive Spelling where
  | long (name : String) (value : Option String)
  | short (letter : Char) (value : Option String)
  | pathsOnly
  | plain
deriving DecidableEq, Repr

def Spelling.of (arg : String) : Spelling :=
  match arg.toList with
  | ['-', '-'] => pathsOnly
  | '-' :: '-' :: rest =>
    match rest.dropWhile (· ≠ '=') with
    | [] => long (String.ofList rest) none
    | _ :: value => long (String.ofList (rest.takeWhile (· ≠ '='))) (some (String.ofList value))
  | '-' :: letter :: '=' :: value => short letter (some (String.ofList value))
  | ['-', letter] => short letter none
  | '-' :: letter :: value => short letter (some (String.ofList value))
  | _ => plain

def find (choices : List Choice) : Spelling → Except Stop (Option (Choice × Option String))
  | .long name value =>
    match choices.find? (·.name = name) with
    | some c => .ok (some (c, value))
    | none =>
      -- asking for the version or for help ends the matter
      if value.isSome then .error .misuse
      else if name = "version" then .error .version
      else if name = "help" then .error .help
      else .error .misuse
  | .short letter value =>
    match choices.find? (·.letter = some letter) with
    | some c => .ok (some (c, value))
    | none =>
      if letter = 'V' then .error .version
      else if letter = 'h' then .error .help
      else .error .misuse
  | .pathsOnly | .plain => .ok none

def scan (choices : List Choice) (g : Given) : List String → Except Stop Given
  | [] => .ok g
  | arg :: rest =>
    if Spelling.of arg = .pathsOnly then g.addPaths rest
    else do
      match ← find choices (.of arg) with
      | none =>
        let g ← g.addPath arg
        scan choices g rest
      | some (c, value) =>
        if c.takesValue then
          match value with
          | some value =>
            let g ← g.addOption c value
            scan choices g rest
          | none =>
            match rest with
            | [] => .error .misuse
            | value :: rest =>
              if Spelling.of value = .plain then
                let g ← g.addOption c value
                scan choices g rest
              else .error .misuse
        else if value.isSome then .error .misuse
        else
          let g ← g.addOption c ""
          scan choices g rest

inductive Request where
  | emit (tree : String) (output : Option String) (directive : Bool) (sourceName : String)
  | check (tree : String) (dumpTree : Bool)
  | version (program : String)
  | help
  | misuse
deriving DecidableEq, Repr

def defaultSourceName : String := "[memory].gr"

def emitChoices : List Choice :=
  [⟨"output", some 'o', true, false⟩, ⟨"line-directive", none, false, true⟩, ⟨"source-name", none, true, true⟩]

def checkChoices : List Choice :=
  [⟨"dump-tree", none, false, true⟩]

namespace Request

def ofStop (program : String) : Stop → Request
  | .version => version program
  | .help => help
  | .misuse => misuse

def ofEmit (args : List String) : Request :=
  match scan emitChoices .none args with
  | .error stop => ofStop "kusa-emit" stop
  | .ok ⟨none, _⟩ => misuse
  | .ok ⟨some tree, options⟩ =>
    emit tree (options.lookup "output") (options.lookup "line-directive").isSome
      ((options.lookup "source-name").getD defaultSourceName)

def ofCheck (args : List String) : Request :=
  match scan checkChoices .none args with
  | .error stop => ofStop "kusa-check" stop
  | .ok ⟨none, _⟩ => misuse
  | .ok ⟨some tree, options⟩ => check tree (options.lookup "dump-tree").isSome

def ofArguments : List String → Request
  | [] => misuse
  | arg :: args =>
    match find [] (.of arg) with
    | .error stop => ofStop "kusa" stop
    | .ok _ =>
      if arg = "emit" then ofEmit args
      else if arg = "check" then ofCheck args
      else if arg = "help" then help
      else misuse

end Request

end SharpTree.Command
