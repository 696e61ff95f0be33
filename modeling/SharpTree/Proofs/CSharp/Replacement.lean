import SharpTree.Proofs.CSharp.Composition

/-!
# Replacing a node in a text

The text of a tree is the text of the node at a position with a text before it and
a text after it. If the node is replaced by one that is not closed, the text
before it stays, and so does the text after it, up to the terminator that a closed
statement of a block of code did without.
-/

namespace SharpTree

variable {ν : Type}

/-! ## Glue around a child -/

theorem weave_split :
    ∀ {gaps ts : List String} {i : Nat} {t : String}, gaps.length = ts.length + 1 → ts[i]? = some t →
    weave gaps ts = weave (gaps.take (i + 1)) (ts.take i) ++ (t ++ weave (gaps.drop (i + 1)) (ts.drop (i + 1)))
  | [], _, _, _, h, _ => by cases h
  | _ :: _, [], _, _, _, ht => by cases ht
  | g :: gaps, t :: ts, 0, _, _, ht => by
    cases ht
    simp [weave]
  | g :: gaps, t :: ts, i + 1, _, h, ht => by
    have ih := weave_split (Nat.succ.inj h) ht
    rw [weave, ih, List.take_succ_cons, List.take_succ_cons, weave, List.drop_succ_cons, List.drop_succ_cons]
    simp only [String.append_assoc]

namespace Node

def before : Node → Position → String
  | _, [] => ""
  | n, i :: p =>
    weave (n.glue.take (i + 1)) ((n.children.take i).map render) ++
      match n.children[i]? with
      | some c => before c p
      | none => ""

def after : Node → Position → String
  | _, [] => ""
  | n, i :: p =>
    (match n.children[i]? with
      | some c => after c p
      | none => "") ++
      weave (n.glue.drop (i + 1)) ((n.children.drop (i + 1)).map render)

theorem render_at :
    ∀ {p : Position} {n m : Node}, n.at? p = some m → n.render = n.before p ++ (m.render ++ n.after p)
  | [], n, m, h => by
    cases h
    simp [before, after]
  | i :: p, n, m, h => by
    obtain ⟨c, hc, hm⟩ := Option.bind_eq_some_iff.mp h
    have hlen : n.glue.length = (n.children.map render).length + 1 := by
      rw [length_glue, List.length_map]
    have hat : (n.children.map render)[i]? = some c.render := by
      rw [List.getElem?_map, hc, Option.map_some]
    rw [render_eq_weave, weave_split hlen hat, render_at hm, before, after, hc, List.map_take, List.map_drop]
    simp only [String.append_assoc]

end Node

end SharpTree
