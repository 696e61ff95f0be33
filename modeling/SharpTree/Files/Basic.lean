import SharpTree.Files.Path

/-! # File trees

Files in directories, with a directory to work in. Paths are followed name by name: each name but the last has to
be that of a directory. -/

namespace SharpTree

inductive Entry where
  | file (content : ByteArray)
  | dir (entries : List (String × Entry))

namespace Entry

def isDir : Entry → Bool
  | dir _ => true
  | file _ => false

def get? : Entry → List String → Option Entry
  | e, [] => some e
  | file _, _ :: _ => none
  | dir entries, name :: rest =>
    match entries.lookup name with
    | some e => e.get? rest
    | none => none

def replace (name : String) (new : Entry) : List (String × Entry) → List (String × Entry)
  | [] => [(name, new)]
  | (n, e) :: rest => if n = name then (n, new) :: rest else (n, e) :: replace name new rest

end Entry

inductive FileError where
  | notFound
  | alreadyExists
  | notDirectory
  | isDirectory
  | nameTooLong
  | badName
deriving DecidableEq, Repr

def FileError.message : FileError → String
  | notFound => "No such file or directory (os error 2)"
  | alreadyExists => "File exists (os error 17)"
  | notDirectory => "Not a directory (os error 20)"
  | isDirectory => "Is a directory (os error 21)"
  | nameTooLong => "File name too long (os error 36)"
  | badName => "file name contained an unexpected NUL byte"

def maxName : Nat := 255

def maxPath : Nat := 4096

/-- A place in a tree: the entry there, and the directories above it, the nearest first, each with the name that
leads down from it. -/
structure Place where
  entry : Entry
  above : List (String × List (String × Entry))

namespace Place

/-- The place of the directory above. There is none above the top, which is its own. -/
def up (p : Place) : Place :=
  match p.above with
  | [] => p
  | (_, entries) :: rest => ⟨.dir entries, rest⟩

def step (p : Place) (name : String) : Except FileError Place :=
  match p.entry with
  | .file _ => .error .notDirectory
  | .dir entries =>
    if name = "." then .ok p
    else if name = ".." then .ok p.up
    else if maxName < name.utf8ByteSize then .error .nameTooLong
    else
      match entries.lookup name with
      | some e => .ok ⟨e, (name, entries) :: p.above⟩
      | none => .error .notFound

def walk (p : Place) : List String → Except FileError Place
  | [] => .ok p
  | name :: rest => do
    let next ← p.step name
    next.walk rest

def rebuild (new : Entry) : List (String × List (String × Entry)) → Entry
  | [] => new
  | (name, entries) :: rest => rebuild (.dir (Entry.replace name new entries)) rest

end Place

structure Files where
  top : Entry
  work : List String

namespace Files

/-- Nothing but an empty directory to work in, away from the top. No path spells the name of that directory or of
the one above it: these names are empty. -/
def empty : Files where
  top := .dir [("", .dir [("", .dir [])])]
  work := ["", ""]

def refusal? (p : Path) : Option FileError :=
  if p.names.any (·.toList.any (·.toNat = 0)) then some .badName
  else if p.isEmpty then some .notFound
  else if maxPath ≤ p.text.utf8ByteSize then some .nameTooLong
  else none

section
variable (fs : Files)

def start (p : Path) : Except FileError Place :=
  Place.walk ⟨fs.top, []⟩ (if p.absolute then [] else fs.work)

def find (p : Path) : Except FileError Entry :=
  match refusal? p with
  | some e => .error e
  | none => do
    let place ← (← fs.start p).walk p.names
    match place.entry with
    | .dir entries => .ok (.dir entries)
    | .file content => if p.slash then .error .notDirectory else .ok (.file content)

def isDir (p : Path) : Bool :=
  match fs.find p with
  | .ok e => e.isDir
  | .error _ => false

def read? (path : String) : Option ByteArray :=
  match fs.find (.ofString path) with
  | .ok (.file content) => some content
  | _ => none

structure Target where
  entries : List (String × Entry)
  above : List (String × List (String × Entry))
  name : String

/-- Where a path would put something new. There is no such place if the path leads to a directory
without a name for it. -/
def target? (p : Path) : Except FileError (Option Target) :=
  match refusal? p with
  | some e => .error e
  | none =>
    match p.names.getLast? with
    | none => .ok none
    | some last => do
      let here ← (← fs.start p).walk p.names.dropLast
      match here.entry with
      | .file _ => .error .notDirectory
      | .dir entries => .ok (if last = "." || last = ".." then none else some ⟨entries, here.above, last⟩)

def put (t : Target) (e : Entry) : Files :=
  { fs with top := Place.rebuild e ((t.name, t.entries) :: t.above) }

def makeDir (p : Path) : Except FileError Files := do
  match ← fs.target? p with
  | none => .error .alreadyExists
  | some t =>
    if maxName < t.name.utf8ByteSize then .error .nameTooLong
    else if (t.entries.lookup t.name).isSome then .error .alreadyExists
    else .ok (fs.put t (.dir []))

def putFile (p : Path) (content : ByteArray) : Except FileError Files := do
  match ← fs.target? p with
  | none => .error .isDirectory
  | some t =>
    if p.slash then .error .isDirectory
    else if maxName < t.name.utf8ByteSize then .error .nameTooLong
    else if (t.entries.lookup t.name).any Entry.isDir then .error .isDirectory
    else .ok (fs.put t (.file content))

end

/-- Makes a directory unless there is one, and first the one above it if that is missing. The stretches of its path
come last first. -/
def makeDirs (absolute : Bool) : List String → Files → Files × Except FileError Unit
  | [], fs => (fs, .ok ())
  | stretch :: above, fs =>
    let path : Path := ⟨absolute, (stretch :: above).reverse⟩
    let attempt (fs : Files) : Files × Except FileError Unit :=
      match fs.makeDir path with
      | .ok fs => (fs, .ok ())
      | .error e => if fs.isDir path then (fs, .ok ()) else (fs, .error e)
    if Path.idle stretch then makeDirs absolute above fs
    else
      match fs.makeDir path with
      | .error .notFound =>
        match makeDirs absolute above fs with
        | (fs, .ok ()) => attempt fs
        -- what has been made stays
        | failed => failed
      | _ => attempt fs

def write (fs : Files) (path : String) (content : ByteArray) : Files × Except FileError Unit :=
  let p := Path.ofString path
  let above := match p.parent? with
    | some parent => makeDirs parent.absolute parent.stretches.reverse fs
    | none => (fs, .ok ())
  match above with
  | (fs, .ok ()) =>
    match fs.putFile p content with
    | .ok fs => (fs, .ok ())
    | .error e => (fs, .error e)
  | failed => failed

mutual
def listing (path : List String) : Entry → List (List String × ByteArray)
  | .file content => [(path, content)]
  | .dir entries => listings path entries
def listings (path : List String) : List (String × Entry) → List (List String × ByteArray)
  | [] => []
  | (name, e) :: rest => listing (path ++ [name]) e ++ listings path rest
end

def changes (before after : Files) : List (String × ByteArray) :=
  let old := (before.top.get? before.work).elim [] (listing [])
  let new := (after.top.get? after.work).elim [] (listing [])
  (new.filter fun (path, content) => old.lookup path != some content).map fun (path, content) =>
    ("/".intercalate path, content)

def ofList (files : List (String × ByteArray)) : Files :=
  files.foldl (fun fs (path, content) => (fs.write path content).1) empty

end Files

end SharpTree
