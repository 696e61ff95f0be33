import SharpTree.Node.Accessor
import SharpTree.Node.Modifier

/-! # Keywords of C# -/

namespace SharpTree

def placeholder : String := "/* not implement */"

def Modifier.keyword : Modifier → String
  | pub => "public"
  | protect => "protected"
  | virtual => "virtual"
  | noinst => "static"
  | other _ => placeholder

/-- The keyword of an accessor; of a key that has no meaning it is the first three characters. -/
def Accessor.keyword : Accessor → String
  | get => "get"
  | set => "set"
  | other key => String.ofList (key.toList.take 3)

end SharpTree
