import SharpTree.Node.Mismatch

/-! # Reading trees from values

A node is an object with a member `type` that tells its kind, or a list that starts with its kind. The fields are
members of the object, in any order, or the other items of the list, in their own order. Members that are no
fields are ignored.

The members of an object are looked at in the order in which they stand. A member is refused first for being
repeated, then for its value; only after the last member are fields found missing. -/

namespace SharpTree

open Json (Value)

abbrev Reading := (s : Shape) → Except Mismatch (s.Carrier Node)

@[reducible] def Slots : List Field → Type
  | [] => Unit
  | f :: fs => Option (f.shape.Carrier Node) × Slots fs

namespace Slots

def empty : (fs : List Field) → Slots fs
  | [] => ()
  | _ :: fs => (none, empty fs)

def put (name : String) (value : Reading) : (fs : List Field) → Slots fs → Except Mismatch (Slots fs)
  | [], () => .ok ()
  | f :: fs, (slot, rest) =>
    if f.name = name then
      match slot with
      | some _ => .error (.repeated name)
      | none => do
        let x ← value f.shape
        .ok (some x, rest)
    else do
      let rest ← put name value fs rest
      .ok (slot, rest)

def putAll (fs : List Field) : List (String × Reading) → Slots fs → Except Mismatch (Slots fs)
  | [], slots => .ok slots
  | (name, value) :: ms, slots => do
    let slots ← put name value fs slots
    putAll fs ms slots

def close : (fs : List Field) → Slots fs → Except Mismatch (Record Node fs)
  | [], () => .ok ()
  | f :: fs, (slot, rest) => do
    let x ← match slot.or (f.shape.absent? Node) with
      | some x => .ok x
      | none => .error (.missing f.name)
    let rest ← close fs rest
    .ok (x, rest)

end Slots

namespace Record

def ofMembers (fs : List Field) (ms : List (String × Reading)) : Except Mismatch (Record Node fs) := do
  let slots ← Slots.putAll fs ms (Slots.empty fs)
  Slots.close fs slots

/-- The fields of a node of a kind that the items of a list give, from position `i` on. -/
def ofItems (kind : Kind) (i : Nat) : (fs : List Field) → List Reading → Except Mismatch (Record Node fs)
  | [], [] => .ok ()
  | [], rs@(_ :: _) => .error (.long (i + rs.length) i)
  | f :: fs, [] =>
    match f.shape.absent? Node with
    | some x => do
      let rest ← ofItems kind (i + 1) fs []
      .ok (x, rest)
    | none => .error (.short i kind)
  | f :: fs, r :: rs => do
    let x ← r f.shape
    let rest ← ofItems kind (i + 1) fs rs
    .ok (x, rest)

end Record

namespace Reading

/-- The kind that the members of an object tell, `seen` being the one told before them. -/
def kindOfMembers (seen : Option Kind) : List (String × Reading) → Except Mismatch Kind
  | [] =>
    match seen with
    | some k => .ok k
    | none => .error (.missing "type")
  | (name, value) :: ms =>
    if name = "type" then
      match seen with
      | some _ => .error (.repeated "type")
      | none => do
        let k ← value .kind
        kindOfMembers (some k) ms
    else kindOfMembers seen ms

def nodeOfMembers (ms : List (String × Reading)) : Except Mismatch Node := do
  let k ← kindOfMembers none ms
  let r ← Record.ofMembers k.fields ms
  .ok (.mk (.ofRecord k r))

def nodeOfItems : List Reading → Except Mismatch Node
  | [] => .error (.missing "type")
  | t :: rs => do
    let k ← t .kind
    let r ← Record.ofItems k 0 k.fields rs
    .ok (.mk (.ofRecord k r))

/-- Of several members with one key the last is kept, at the place of the first. -/
def accessors (found : List (Accessor × Node)) : List (String × Reading) →
    Except Mismatch (List (Accessor × Node))
  | [] => .ok found
  | (key, value) :: ms => do
    let body ← value .node
    accessors ((Accessor.ofKey key).bind body found) ms

/-- A kind of block may be an object with the name as its only key, and nothing as the value. -/
def blockKind : List (String × Reading) → Except Mismatch BlockKind
  | [(name, value)] => do
    value .nothing
    .ok (.ofName name)
  | _ => .error .notSingle

def refuse (v : Value) : Reading := fun s =>
  .error (.unexpected v.found s)

def ofScalar (v : Value) : Reading
  | .literal => .ok v
  | .kind =>
    match v with
    | .str name => .ok (.ofName name)
    | .num (.int (.ofNat n)) => .ok (.ofNumber n)
    | _ => refuse v .kind
  | .nothing => if v = .null then .ok () else refuse v .nothing
  | .optionalNode => if v = .null then .ok none else refuse v .optionalNode
  | .modifiers => if v = .null then .ok none else refuse v .modifiers
  | .blockKind =>
    match v with
    | .str name => .ok (.ofName name)
    | _ => refuse v .blockKind
  | .text =>
    match v with
    | .str s => .ok s
    | _ => refuse v .text
  | s => refuse v s

def ofItems (v : Value) (rs : List Reading) : Reading
  | .literal => .ok v.canonical
  | .node => nodeOfItems rs
  | .optionalNode => some <$> nodeOfItems rs
  | .nodes => rs.mapM (· .node)
  | .optionalNodes => rs.mapM (· .node)
  | .declarator => .ofRecord <$> Record.ofItems .declarator 0 Declarator.fields rs
  | .modifiers => do
    let tokens ← rs.mapM (· .text)
    .ok (some (tokens.map .ofToken))
  | s => refuse v s

def ofMembers (v : Value) (ms : List (String × Reading)) : Reading
  | .literal => .ok v.canonical
  | .nothing => if ms.isEmpty then .ok () else refuse v .nothing
  | .node => nodeOfMembers ms
  | .optionalNode => some <$> nodeOfMembers ms
  | .declarator => .ofRecord <$> Record.ofMembers Declarator.fields ms
  | .accessors => accessors [] ms
  | .blockKind => blockKind ms
  | s => refuse v s

mutual
def ofValue : Value → Reading
  | .arr vs => ofItems (.arr vs) (ofValues vs)
  | .obj ms => ofMembers (.obj ms) (ofMemberValues ms)
  | v => ofScalar v
def ofValues : List Value → List Reading
  | [] => []
  | v :: vs => ofValue v :: ofValues vs
def ofMemberValues : List (String × Value) → List (String × Reading)
  | [] => []
  | (name, v) :: ms => (name, ofValue v) :: ofMemberValues ms
end

end Reading

def Node.ofValue (v : Value) : Except Mismatch Node :=
  Reading.ofValue v .node

end SharpTree
