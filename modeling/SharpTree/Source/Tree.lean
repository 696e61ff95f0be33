import SharpTree.Node.Reading
import SharpTree.Source.ParseError
import SharpTree.Source.Value

/-! # Reading trees from text

What is wrong with the tag of the outermost node is noticed while its text is read, and told with the place. All
else is noticed in the value that has been read, where there are no places any more. The outermost node is also
stricter about its tag, which has to be a string. -/

namespace SharpTree

open Json (Value)

namespace Source

/-- The refusal of the value that comes next. Lists and objects are refused before they are read. -/
def refuse {α : Type} (expected : Shape) : Reader α := fun rest =>
  match skipBlanks rest with
  | [] => .error (Problem.valueEnds.past [])
  | rest@(c :: _) =>
    if c = '[' then .error ((Mismatch.unexpected .list expected).before rest)
    else if c = '{' then .error ((Mismatch.unexpected .object expected).before rest)
    else do
      let (v, rest) ← scalar rest
      .error ((Mismatch.unexpected v.found expected).before rest)

def tag : Reader Value := fun rest =>
  match skipBlanks rest with
  | '"' :: rest => do
    let (s, rest) ← string rest
    .ok (.str s, rest)
  | rest => refuse .kind rest

/-- The fault of a tag that comes a second time. Its place is after the key and what may close the object there. -/
def secondTag (rest : List Char) : Fault :=
  match skipBlanks rest with
  | '}' :: rest => (Mismatch.repeated "type").before rest
  | rest => (Mismatch.repeated "type").before rest

def rootMember (depth : Nat) (before : List String) (key : String) : Reader Value := fun rest =>
  if key = "type" then
    if key ∈ before then .error (secondTag rest) else afterColon tag rest
  else afterColon (value depth) rest

def rootList (depth : Nat) : Reader Value := fun rest =>
  match skipBlanks rest with
  | [] => .error (Problem.listEnds.past [])
  | ']' :: rest => .error ((Mismatch.missing "type").before rest)
  | rest => do
    let (t, rest) ← tag rest
    let (vs, rest) ← moreItems (value depth) rest rest
    .ok (.arr (t :: vs), rest)

def rootObject (depth : Nat) : Reader Value := fun rest => do
  let (ms, rest) ← object (rootMember depth) rest
  if ms.any (·.1 = "type") then .ok (.obj ms, rest)
  else .error ((Mismatch.missing "type").before rest)

/-- The value of the outermost node, which opens one bracket itself and at most `depth` inside it. -/
def root (depth : Nat) : Reader Value := fun rest =>
  match skipBlanks rest with
  | '[' :: rest => rootList depth rest
  | '{' :: rest => rootObject depth rest
  | rest => refuse .node rest

def blockKind : Reader BlockKind := fun rest =>
  match skipBlanks rest with
  | [] => .error (Problem.valueEnds.past [])
  | '"' :: rest => do
    let (name, rest) ← string rest
    .ok (.ofName name, rest)
  | '{' :: rest =>
    match skipBlanks rest with
    | [] => .error (Problem.objectEnds.past [])
    | '"' :: rest => do
      let (name, rest) ← string rest
      let ((), rest) ← afterColon nothing rest
      match skipBlanks rest with
      | [] => .error (Problem.objectEnds.before [])
      | '}' :: rest => .ok (.ofName name, rest)
      | rest => .error (Problem.noValue.before rest)
    | rest@('}' :: _) => .error (Problem.noValue.past rest)
    | rest => .error (Problem.noKey.past rest)
  | rest => .error (Problem.noValue.past rest)
where
  nothing : Reader Unit := fun rest =>
    match skipBlanks rest with
    | 'n' :: rest => word ['u', 'l', 'l'] rest
    | rest => refuse .nothing rest

end Source

def Node.parse (source : String) : Except ParseError Node :=
  let text := source.toList
  -- the white space of Unicode counts here, of which the readers skip only four characters
  if trimSpace text = [] then .error .empty
  else
    match Source.root (maxNesting - 2) text with
    | .error f => .error (.ofFault text f)
    | .ok (v, rest) =>
      match Node.ofValue v with
      | .error m => .error (.mismatch m none)
      | .ok n =>
        -- what follows the value is looked at last, so a mismatch is told before it
        match Source.finish rest with
        | .error f => .error (.ofFault text f)
        | .ok () => .ok n

def BlockKind.parse (source : String) : Except ParseError BlockKind :=
  let text := source.toList
  match Source.blockKind text with
  | .error f => .error (.ofFault text f)
  | .ok (kind, rest) =>
    match Source.finish rest with
    | .error f => .error (.ofFault text f)
    | .ok () => .ok kind

end SharpTree
