/-! # Property accessors

A property lists its accessors in the order in which their keys first appear. -/

namespace SharpTree

inductive Accessor where
  | get
  | set
  | other (key : String)
deriving DecidableEq, Repr

namespace Accessor

def ofKey (key : String) : Accessor :=
  if key = "get" then .get
  else if key = "set" then .set
  else .other key

def key : Accessor → String
  | .get => "get"
  | .set => "set"
  | .other key => key

def isKnown : Accessor → Bool
  | .other _ => false
  | _ => true

@[simp] theorem key_ofKey (key : String) : (ofKey key).key = key := by
  unfold ofKey
  repeat' split
  all_goals simp_all [Accessor.key]

/-- Binds an accessor: a new one comes last, one that is there already keeps its place. -/
def bind {ν : Type} (a : Accessor) (body : ν) : List (Accessor × ν) → List (Accessor × ν)
  | [] => [(a, body)]
  | (b, old) :: rest => if a = b then (a, body) :: rest else (b, old) :: bind a body rest

end Accessor

end SharpTree
