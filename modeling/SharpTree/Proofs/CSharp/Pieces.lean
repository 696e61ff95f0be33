import SharpTree.CSharp.Render

/-!
# The pieces of a rendered node

The text of a node is a row of pieces: texts of its own, and the texts of its
children in between, each child once and in the order of `children`. Only the
terminators in a block of code look at a child, and only at whether it is closed.
-/

namespace SharpTree

variable {ν μ : Type}

inductive Piece (ν : Type) where
  | text (s : String)
  | child (c : ν)

theorem join_flatMap {α β : Type} (say : β → String) (row : α → List β) (as : List α) :
    String.join ((as.flatMap row).map say) = String.join (as.map fun a => String.join ((row a).map say)) := by
  induction as with
  | nil => rfl
  | cons a as ih =>
    simp only [List.flatMap_cons, List.map_append, String.join_append, ih, List.map_cons, String.join_cons]

namespace Piece

def map (g : ν → μ) : Piece ν → Piece μ
  | text s => text s
  | child c => child (g c)

def nodes : Piece ν → List ν
  | text _ => []
  | child c => [c]

def speak (say : ν → String) : Piece ν → String
  | text s => s
  | child c => say c

/-- Rows of pieces with a text between each two of them. -/
def joined (sep : String) : List (List (Piece ν)) → List (Piece ν)
  | [] => []
  | [row] => row
  | row :: next :: rows => row ++ text sep :: joined sep (next :: rows)

theorem map_joined (g : ν → μ) (sep : String) : ∀ rows : List (List (Piece ν)),
    (joined sep rows).map (map g) = joined sep (rows.map (List.map (map g)))
  | [] => rfl
  | [row] => rfl
  | row :: next :: rows => by
    have ih := map_joined g sep (next :: rows)
    simp only [joined, List.map_append, List.map_cons] at ih ⊢
    rw [ih]
    rfl

theorem nodes_joined (sep : String) : ∀ rows : List (List (Piece ν)),
    (joined sep rows).flatMap nodes = rows.flatMap (List.flatMap nodes)
  | [] => rfl
  | [row] => by simp [joined]
  | row :: next :: rows => by
    have ih := nodes_joined sep (next :: rows)
    simp only [joined, List.flatMap_append, List.flatMap_cons] at ih ⊢
    rw [ih]
    rfl

theorem speak_joined (say : ν → String) (sep : String) : ∀ rows : List (List (Piece ν)),
    String.join ((joined sep rows).map (speak say)) =
      sep.intercalate (rows.map fun row => String.join (row.map (speak say)))
  | [] => rfl
  | [row] => by simp [joined]
  | row :: next :: rows => by
    have ih := speak_joined say sep (next :: rows)
    simp only [joined, List.map_append, List.map_cons, String.join_append, String.join_cons, speak] at ih ⊢
    rw [ih, String.intercalate_cons_cons, String.append_assoc]

end Piece

namespace Form

open Piece (joined)

/-- The pieces of a form, where `closed` tells which children need no terminator. -/
def pieces (closed : ν → Bool) : Form ν → List (Piece ν)
  | program body => body.flatMap fun c => [.child c, .text "\n"]
  | block kind body =>
    .text "\x7b\n" ::
      (body.flatMap fun c => [.child c, .text (if kind.isCode && !closed c then ";\n" else "\n")]) ++ [.text "\x7d"]
  | typeDecl ms name body =>
    [.text (modifierText ms), .text "class ", .child name, .text " ", .child body, .text "\n"]
  | function ms result name params body =>
    [.text (modifierText ms), result.elim (.text "void") .child, .text " ", .child name, .text "("] ++
      joined ", " (params.map fun c => [.child c]) ++ [.text ") ", .child body]
  | declarator d =>
    [.child d.varType, .text " ", .child d.varName] ++ d.value.elim [] fun c => [.text " = ", .child c]
  | localVar d => [.child d]
  | member ms d => [.text (modifierText ms), .child d, .text ";"]
  | property ms d accessors =>
    [.text (modifierText ms), .child d.varType, .text " ", .child d.varName, .text " \x7b\n"] ++
      joined "\n" (accessors.map fun b => [.text b.1.keyword, .text " ", .child b.2, .text "\n"]) ++
      .text "\x7d" :: d.value.elim [] fun c => [.text " = ", .child c, .text ";"]
  | identifier name => [.text name]
  | path curr next => .child curr :: next.elim [] fun c => [.text ".", .child c]
  | importing target => [.text "using ", .child target, .text ";"]
  | call callee args => [.child callee, .text "("] ++ joined "," (args.map fun c => [.child c]) ++ [.text ")"]
  | access left right => [.child left, .text ".", .child right]
  | index source position => [.child source, .text "[", .child position, .text "]"]
  | arrayOf target => [.child target, .text "[]"]
  | creation target => [.text "new ", .child target]
  | assignment dest source => [.child dest, .text " = ", .child source]
  | operation left op right => [.child left, .text " ", .text op, .text " ", .child right]
  | stringLit v => [.text "\"", .text v.raw, .text "\""]
  | numberLit v | booleanLit v => [.text v.raw]
  | conditional c body => [.text "if (", .child c, .text ") ", .child body]
  | loop c body => [.text "while (", .child c, .text ") ", .child body]
  | returning v => [.text "return ", .child v]
  | unsupported => [.text placeholder]

theorem pieces_map (g : ν → μ) (closed : μ → Bool) (f : Form ν) :
    (f.map g).pieces closed = (f.pieces fun c => closed (g c)).map (Piece.map g) := by
  cases f with
  | program body => simp [map, pieces, List.flatMap_map, List.map_flatMap, Piece.map]
  | block kind body => simp [map, pieces, List.flatMap_map, List.map_flatMap, Piece.map]
  | function ms result name params body =>
    cases result <;> simp [map, pieces, Piece.map, Piece.map_joined, Function.comp_def]
  | declarator d => cases h : d.value <;> simp [map, pieces, Declarator.map, Piece.map, h]
  | property ms d accessors =>
    cases h : d.value <;>
      simp [map, pieces, Declarator.map, Piece.map, Piece.map_joined, Function.comp_def, h]
  | path curr next => cases next <;> simp [map, pieces, Piece.map]
  | call callee args => simp [map, pieces, Piece.map, Piece.map_joined, Function.comp_def]
  | _ => simp [map, pieces, Piece.map]

theorem nodes_pieces (closed : ν → Bool) (f : Form ν) : (f.pieces closed).flatMap Piece.nodes = f.children := by
  cases f with
  | program body => simp [pieces, children, List.flatMap_assoc, Piece.nodes]
  | block kind body => simp [pieces, children, List.flatMap_assoc, Piece.nodes]
  | function ms result name params body =>
    cases result <;> simp [pieces, children, Piece.nodes, Piece.nodes_joined, List.flatMap_map]
  | declarator d => cases h : d.value <;> simp [pieces, children, Declarator.children, Piece.nodes, h]
  | property ms d accessors =>
    have hbodies : (accessors.flatMap fun b => [b.2]) = accessors.map Prod.snd := by
      induction accessors <;> simp_all
    cases h : d.value <;> simp [pieces, children, Piece.nodes, Piece.nodes_joined, List.flatMap_map, hbodies, h]
  | path curr next => cases next <;> simp [pieces, children, Piece.nodes]
  | call callee args => simp [pieces, children, Piece.nodes, Piece.nodes_joined, List.flatMap_map]
  | _ => simp [pieces, children, Piece.nodes]

theorem mem_pieces {closed : ν → Bool} {f : Form ν} {c : ν} : .child c ∈ f.pieces closed ↔ c ∈ f.children := by
  rw [← nodes_pieces closed f, List.mem_flatMap]
  constructor
  · intro h
    exact ⟨_, h, List.mem_singleton_self c⟩
  · intro h
    obtain ⟨p, hp, hc⟩ := h
    cases p with
    | text s => cases hc
    | child d =>
      cases List.mem_singleton.mp hc
      exact hp

theorem text_eq_speak (f : Form Fragment) :
    f.text = String.join ((f.pieces Fragment.closed).map (Piece.speak Fragment.text)) := by
  cases f with
  | program body =>
    rw [text, pieces, join_flatMap]
    simp [Piece.speak]
  | block kind body =>
    rw [text, pieces, List.map_append, List.map_cons, String.join_append, String.join_cons, join_flatMap]
    have hrows : body.map (statementText kind) = body.map fun c => String.join
        ([Piece.child c, .text (if kind.isCode && !c.closed then ";\n" else "\n")].map
          (Piece.speak Fragment.text)) := by
      apply List.map_congr_left
      intro c _
      unfold statementText
      split <;> simp [Piece.speak]
    rw [hrows]
    simp [Piece.speak]
  | function ms result name params body =>
    cases result with
    | none =>
      simp [text, pieces, Piece.speak, Piece.speak_joined, String.append_assoc, Function.comp_def]
      rw [← String.append_assoc]
      rfl
    | some r => simp [text, pieces, Piece.speak, Piece.speak_joined, String.append_assoc, Function.comp_def]
  | declarator d => cases h : d.value <;> simp [text, pieces, Piece.speak, String.append_assoc, h]
  | property ms d accessors =>
    cases h : d.value <;>
      simp [text, pieces, accessorText, Piece.speak, Piece.speak_joined, String.append_assoc, Function.comp_def, h]
  | path curr next => cases next <;> simp [text, pieces, Piece.speak]
  | call callee args => simp [text, pieces, Piece.speak, Piece.speak_joined, String.append_assoc, Function.comp_def]
  | _ => simp [text, pieces, Piece.speak, String.append_assoc]

end Form

namespace Node

/-- Whether a node needs no terminator where it stands as a statement. -/
def closed (n : Node) : Bool :=
  n.form.endsWithBody

theorem fragment_closed (n : Node) : n.fragment.closed = n.closed := by
  obtain ⟨f⟩ := n
  unfold fragment closed
  rw [fold_mk]
  cases f <;> rfl

theorem render_eq_text (f : Form Node) : render (mk f) = (f.map fragment).text := by
  unfold render fragment
  rw [fold_mk]

theorem render_mk (f : Form Node) : render (mk f) = String.join ((f.pieces closed).map (Piece.speak render)) := by
  have hsay : (f.pieces fun c => c.fragment.closed) = f.pieces closed := by
    simp only [fragment_closed]
  have hpiece (p : Piece Node) : Piece.speak Fragment.text (p.map fragment) = p.speak render := by
    cases p <;> rfl
  rw [render_eq_text, Form.text_eq_speak, Form.pieces_map, hsay, List.map_map]
  simp only [Function.comp_def, hpiece]

end Node

end SharpTree
