import SharpTree.Command.Run

/-! # The command line

Reads and writes real files where the command asks for them. All that is said and decided comes from the request
and from what reading and writing lead to. -/

namespace SharpTree.Command

def loadTree (path : String) : IO (Except LoadError Node) := do
  match ← (IO.FS.readBinFile path).toBaseIO with
  | .ok content => return (Parser.json.decode path content).result
  | .error _ => return .error (.notFound path)

def fileError? : IO.Error → Option FileError
  | .noFileOrDirectory .. => some .notFound
  | .alreadyExists .. => some .alreadyExists
  | .inappropriateType _ code _ => some (if code = 20 then .notDirectory else .isDirectory)
  | .invalidArgument _ code _ => if code = 36 then some .nameTooLong else none
  | _ => none

def saveUnit (u : CodeUnit) (path : String) : IO (Except UnitError Unit) := do
  let save : IO Unit := do
    if let some parent := (Path.ofString path).parent? then
      unless parent.isEmpty do
        IO.FS.createDirAll parent.text
    IO.FS.writeBinFile path u.content.toUTF8
  match ← save.toBaseIO with
  | .ok () => return .ok ()
  | .error e =>
    match fileError? e with
    | some reason => return .error (.file reason)
    | none => throw e

def runWithSystem (color : Bool) : Request → IO Outcome
  | .emit tree output directive sourceName => do
    match plan tree directive sourceName (← loadTree tree), output with
    | .error f, _ => return f.outcome color
    | .ok (n, u), none => return printedOutcome color n u
    | .ok (n, u), some path =>
      match ← saveUnit u path with
      | .ok () => return writtenOutcome color n u path
      | .error e => return (Failure.write path e).outcome color
  | .check tree dumpTree => return checkOutcome color tree dumpTree (← loadTree tree)
  | request => return (run color .empty request).2

end SharpTree.Command

def main (args : List String) : IO UInt32 := do
  let forced := (← IO.getEnv "CLICOLOR_FORCE").any (· ≠ "0")
  let color := forced || (← (← IO.getStdout).isTty)
  let outcome ← SharpTree.Command.runWithSystem color (.ofArguments args)
  IO.print outcome.stdout
  IO.eprint outcome.stderr
  return outcome.status.toUInt32
