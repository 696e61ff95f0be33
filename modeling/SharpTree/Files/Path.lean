/-! # Paths of files

Only `/` separates the names of a path. -/

namespace SharpTree

def segments : List Char → List (List Char)
  | [] => [[]]
  | c :: cs =>
    if c = '/' then [] :: segments cs
    else
      match segments cs with
      | [] => [[c]]
      | s :: ss => (c :: s) :: ss

/-- A path: where it starts, and the stretches of its text between slashes. A stretch is empty where two slashes
meet, and the last one is where a slash ends the text. -/
structure Path where
  absolute : Bool
  stretches : List String
deriving DecidableEq, Repr

namespace Path

def ofString (s : String) : Path :=
  match s.toList with
  | '/' :: rest => ⟨true, (segments rest).map String.ofList⟩
  | cs => ⟨false, (segments cs).map String.ofList⟩

def text (p : Path) : String :=
  (if p.absolute then "/" else "") ++ "/".intercalate p.stretches

def names (p : Path) : List String :=
  p.stretches.filter (· ≠ "")

def slash (p : Path) : Bool :=
  p.stretches.getLast? = some ""

def idle (stretch : String) : Bool :=
  stretch = "" || stretch = "."

/-- The path of the directory that the path names something in, written as in the path. What leads nowhere is left
out at its end. There is none for a path that leads nowhere. -/
def parent? (p : Path) : Option Path :=
  match p.stretches.reverse.dropWhile idle with
  | [] => none
  | _ :: above => some { p with stretches := (above.dropWhile idle).reverse }

def isEmpty (p : Path) : Bool :=
  !p.absolute && p.names.isEmpty

def fileName? (p : Path) : Option String :=
  match (p.names.filter (· ≠ ".")).getLast? with
  | some name => if name = ".." then none else some name
  | none => none

end Path

/-- A file name without what its last dot begins. A dot that comes first begins nothing. -/
def stem (name : String) : String :=
  let cs := name.toList
  match (cs.reverse.dropWhile (· ≠ '.')).drop 1 with
  | [] => name
  | before => String.ofList before.reverse

def Path.fileStem? (p : Path) : Option String :=
  p.fileName?.map stem

end SharpTree
