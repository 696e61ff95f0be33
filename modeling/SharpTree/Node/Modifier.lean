/-! # Modifiers -/

namespace SharpTree

inductive Modifier where
  | pub
  | protect
  | virtual
  | noinst
  | other (token : String)
deriving DecidableEq, Repr

namespace Modifier

def ofToken (token : String) : Modifier :=
  if token = "pub" then .pub
  else if token = "protect" then .protect
  else if token = "virtual" then .virtual
  else if token = "noinst" then .noinst
  else .other token

def token : Modifier → String
  | .pub => "pub"
  | .protect => "protect"
  | .virtual => "virtual"
  | .noinst => "noinst"
  | .other token => token

def isKnown : Modifier → Bool
  | .other _ => false
  | _ => true

@[simp] theorem token_ofToken (token : String) : (ofToken token).token = token := by
  unfold ofToken
  repeat' split
  all_goals simp_all [Modifier.token]

end Modifier

end SharpTree
