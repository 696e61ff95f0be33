import SharpTree.Source.Number
import SharpTree.Source.Text
import SharpTree.Text.Blank

/-! # Reading JSON values

Lists and objects are read by loops that are given the reader of their parts, so that nesting is a plain recursion
on the number of brackets that may still be opened. The loops are bounded by the text that they start with: every
round takes a comma off it. -/

namespace SharpTree.Source

open Json (Value)

def word : List Char → Reader Unit
  | [], rest => .ok ((), rest)
  | _ :: _, [] => .error (Problem.valueEnds.before [])
  | c :: cs, rest@(x :: after) => if x = c then word cs after else .error (Problem.noWord.past rest)

def scalar : Reader Value
  | [] => .error (Problem.valueEnds.past [])
  | rest@(c :: after) =>
    if c = 'n' then do
      let ((), after) ← word ['u', 'l', 'l'] after
      .ok (.null, after)
    else if c = 't' then do
      let ((), after) ← word ['r', 'u', 'e'] after
      .ok (.bool true, after)
    else if c = 'f' then do
      let ((), after) ← word ['a', 'l', 's', 'e'] after
      .ok (.bool false, after)
    else if c = '"' then do
      let (s, after) ← string after
      .ok (.str s, after)
    else if c = '-' then do
      let (n, after) ← number true after
      .ok (.num n, after)
    else if c.isDigit then do
      let (n, after) ← number false rest
      .ok (.num n, after)
    else .error (Problem.noValue.past rest)

section Lists

variable {α : Type} (item : Reader α)

def moreItems : (bound : List Char) → Reader (List α)
  | [], _ => .error (Problem.listEnds.past [])
  | _ :: bound, rest =>
    match skipBlanks rest with
    | [] => .error (Problem.listEnds.past [])
    | rest@(c :: after) =>
      if c = ']' then .ok ([], after)
      else if c = ',' then
        match skipBlanks after with
        | [] => .error (Problem.valueEnds.past [])
        | rest@(c :: _) =>
          if c = ']' then .error (Problem.trailingComma.past rest)
          else do
            let (x, rest) ← item rest
            let (xs, rest) ← moreItems bound rest
            .ok (x :: xs, rest)
      else .error (Problem.noListEnd.past rest)

def list : Reader (List α) := fun rest =>
  match skipBlanks rest with
  | [] => .error (Problem.listEnds.past [])
  | rest@(c :: after) =>
    if c = ']' then .ok ([], after)
    else do
      let (x, rest) ← item rest
      let (xs, rest) ← moreItems item rest rest
      .ok (x :: xs, rest)

end Lists

def colon : Reader Unit := fun rest =>
  match skipBlanks rest with
  | [] => .error (Problem.objectEnds.past [])
  | rest@(c :: after) => if c = ':' then .ok ((), after) else .error (Problem.noColon.past rest)

section Objects

/- What follows a key is read with the key and those before it in view. -/
variable {α : Type} (value : List String → String → Reader α)

def moreMembers : (bound : List Char) → List String → Reader (List (String × α))
  | [], _, _ => .error (Problem.objectEnds.past [])
  | _ :: bound, before, rest =>
    match skipBlanks rest with
    | [] => .error (Problem.objectEnds.past [])
    | rest@(c :: after) =>
      if c = '}' then .ok ([], after)
      else if c = ',' then
        match skipBlanks after with
        | [] => .error (Problem.valueEnds.past [])
        | rest@(c :: after) =>
          if c = '"' then do
            let (key, rest) ← string after
            let (x, rest) ← value before key rest
            let (xs, rest) ← moreMembers bound (key :: before) rest
            .ok ((key, x) :: xs, rest)
          else if c = '}' then .error (Problem.trailingComma.past rest)
          else .error (Problem.noKey.past rest)
      else .error (Problem.noObjectEnd.past rest)

def object : Reader (List (String × α)) := fun rest =>
  match skipBlanks rest with
  | [] => .error (Problem.objectEnds.past [])
  | rest@(c :: after) =>
    if c = '}' then .ok ([], after)
    else if c = '"' then do
      let (key, rest) ← string after
      let (x, rest) ← value [] key rest
      let (xs, rest) ← moreMembers value rest [key] rest
      .ok ((key, x) :: xs, rest)
    else .error (Problem.noKey.past rest)

end Objects

def afterColon {α : Type} (value : Reader α) : Reader α := fun rest => do
  let ((), rest) ← colon rest
  value rest

def next (list object : Reader Value) : Reader Value := fun rest =>
  match skipBlanks rest with
  | [] => .error (Problem.valueEnds.past [])
  | rest@(c :: after) =>
    if c = '[' then list after
    else if c = '{' then object after
    else scalar rest

def tooDeep : Reader Value := fun rest =>
  .error (Cause.tooDeep.before rest)

/-- A value that opens at most `depth` brackets inside each other. -/
def value : (depth : Nat) → Reader Value
  | 0 => next tooDeep tooDeep
  | depth + 1 =>
    next
      (fun rest => do
        let (vs, rest) ← list (value depth) rest
        .ok (.arr vs, rest))
      (fun rest => do
        let (ms, rest) ← object (fun _ _ => afterColon (value depth)) rest
        .ok (.obj ms, rest))

def finish : List Char → Except Fault Unit := fun rest =>
  match skipBlanks rest with
  | [] => .ok ()
  | rest => .error (Problem.trailingCharacters.past rest)

end SharpTree.Source
