import SharpTree.Proofs.CSharp.Pieces
import SharpTree.Proofs.Node.Position

/-!
# Rendering is compositional

The text of a node is woven from texts of its own, its glue, and the texts of its
children. The glue comes from the node without its children, and in a block of
code also from which statements are closed.

The script of a tree is its text with a mark where each node begins and ends. Its
beginnings are the positions of the tree in pre-order, and what stands between the
marks of a position is the script of the node there.
-/

namespace SharpTree

variable {ν μ : Type}

/-! ## Glue -/

/-- Puts texts between other texts. -/
def weave : List String → List String → String
  | gap :: gaps, t :: ts => gap ++ (t ++ weave gaps ts)
  | gaps, _ => String.join gaps

namespace Piece

def gaps : List (Piece ν) → List String
  | [] => [""]
  | text s :: ps => (gaps ps).modifyHead (s ++ ·)
  | child _ :: ps => "" :: gaps ps

theorem length_gaps (ps : List (Piece ν)) : (gaps ps).length = (ps.flatMap nodes).length + 1 := by
  induction ps with
  | nil => rfl
  | cons p ps ih =>
    cases p with
    | text s => simpa [gaps, nodes] using ih
    | child c => simpa [gaps, nodes] using ih

theorem gaps_map (g : ν → μ) (ps : List (Piece ν)) : gaps (ps.map (map g)) = gaps ps := by
  induction ps with
  | nil => rfl
  | cons p ps ih =>
    cases p with
    | text s => simp only [List.map_cons, map, gaps, ih]
    | child c => simp only [List.map_cons, map, gaps, ih]

theorem weave_modifyHead (s : String) {gaps ts : List String} (h : gaps ≠ []) :
    weave (gaps.modifyHead (s ++ ·)) ts = s ++ weave gaps ts := by
  cases gaps with
  | nil => exact absurd rfl h
  | cons g gs =>
    cases ts with
    | nil => simp [weave, String.append_assoc]
    | cons t ts => simp [weave, String.append_assoc]

theorem join_speak (say : ν → String) (ps : List (Piece ν)) :
    String.join (ps.map (speak say)) = weave (gaps ps) ((ps.flatMap nodes).map say) := by
  induction ps with
  | nil => rfl
  | cons p ps ih =>
    cases p with
    | text s =>
      have hne : gaps ps ≠ [] := by
        intro h
        have := length_gaps ps
        rw [h] at this
        cases this
      simp only [List.map_cons, String.join_cons, speak, gaps, List.flatMap_cons, nodes, List.nil_append]
      rw [weave_modifyHead s hne, ih]
    | child c =>
      simp only [List.map_cons, String.join_cons, speak, gaps, List.flatMap_cons, nodes, List.cons_append,
        List.nil_append, weave, ih]
      rw [String.empty_append]

end Piece

namespace Form

/-- Whether the form puts terminators after its children. -/
def terminates : Form ν → Bool
  | block kind _ => kind.isCode
  | _ => false

/-- The texts of a form around those of its children, of which it is given whether they are closed. -/
def glue (f : Form Bool) : List String :=
  Piece.gaps (f.pieces id)

theorem terminates_map (g : ν → μ) (f : Form ν) : (f.map g).terminates = f.terminates := by
  cases f <;> rfl

theorem pieces_of_not_terminates {f : Form ν} (h : f.terminates = false) (c c' : ν → Bool) :
    f.pieces c = f.pieces c' := by
  cases f with
  | block kind body =>
    unfold terminates at h
    simp [pieces, h]
  | _ => rfl

theorem glue_of_not_terminates {f : Form Bool} (h : f.terminates = false) :
    f.glue = Piece.gaps (f.own.pieces fun _ => true) := by
  unfold glue own
  rw [pieces_map, Piece.gaps_map, pieces_of_not_terminates h]

theorem glue_congr {f g : Form Bool} (ho : f.own = g.own) (hc : f.terminates = true → f.children = g.children) :
    f.glue = g.glue := by
  by_cases ht : f.terminates = true
  · rw [ext_own ho (hc ht)]
  · have hf : f.terminates = false := Bool.eq_false_iff.mpr ht
    have hg : g.terminates = false := by
      rw [← hf, ← terminates_map (fun _ => ()) f, ← terminates_map (fun _ => ()) g]
      exact congrArg terminates ho.symm
    rw [glue_of_not_terminates hf, glue_of_not_terminates hg, ho]

end Form

namespace Node

def glue (n : Node) : List String :=
  (n.form.map closed).glue

theorem glue_eq_gaps (f : Form Node) : glue (mk f) = Piece.gaps (f.pieces closed) := by
  unfold glue Form.glue
  rw [Form.pieces_map, Piece.gaps_map]
  rfl

theorem length_glue (n : Node) : n.glue.length = n.children.length + 1 := by
  obtain ⟨f⟩ := n
  rw [glue_eq_gaps, Piece.length_gaps, Form.nodes_pieces]
  rfl

theorem render_eq_weave (n : Node) : n.render = weave n.glue (n.children.map render) := by
  obtain ⟨f⟩ := n
  rw [render_mk, glue_eq_gaps, Piece.join_speak, Form.nodes_pieces]
  rfl

theorem glue_congr {m n : Node} (ho : m.form.own = n.form.own)
    (hc : n.form.terminates = true → m.children.map closed = n.children.map closed) : m.glue = n.glue := by
  unfold glue
  apply Form.glue_congr
  · rw [Form.own_map, Form.own_map, ho]
  · intro ht
    have hm : n.form.terminates = true := by
      rw [← Form.terminates_map (fun _ => ()), ← Form.own, ← ho, Form.own, Form.terminates_map]
      rwa [Form.terminates_map] at ht
    rw [Form.children_map, Form.children_map]
    exact hc hm

end Node

/-! ## Scripts -/

/-- A text of its own, or the beginning or the end of the node at a position. -/
inductive Mark where
  | enter (p : Position)
  | text (s : String)
  | leave (p : Position)

namespace Mark

def under (p : Position) : Mark → Mark
  | enter q => enter (p ++ q)
  | text s => text s
  | leave q => leave (p ++ q)

def spoken : Mark → String
  | text s => s
  | _ => ""

def entered : Mark → List Position
  | enter p => [p]
  | _ => []

theorem under_under (p q : Position) (m : Mark) : (m.under q).under p = m.under (p ++ q) := by
  cases m <;> simp [under]

theorem under_nil (m : Mark) : m.under [] = m := by
  cases m <;> rfl

theorem spoken_under (p : Position) (m : Mark) : (m.under p).spoken = m.spoken := by
  cases m <;> rfl

theorem entered_under (p : Position) (m : Mark) : (m.under p).entered = m.entered.map (p ++ ·) := by
  cases m <;> rfl

end Mark

def Piece.marks (script : ν → List Mark) : Piece (Nat × ν) → List Mark
  | text s => [.text s]
  | child c => (script c.2).map (Mark.under [c.1])

namespace Form

def numbered (f : Form ν) : Form (Nat × ν) :=
  f.mapIdx Prod.mk

theorem children_numbered (f : Form ν) : f.numbered.children = f.children.mapIdx Prod.mk :=
  children_mapIdx Prod.mk f

theorem map_snd_numbered (f : Form ν) : f.numbered.map Prod.snd = f := by
  apply ext_own
  · rw [own_map, numbered, own_mapIdx]
  · rw [children_map, children_numbered, map_mapIdx]
    exact (mapIdx_const id f.children).trans (List.map_id f.children)

theorem mem_of_numbered {closed : Nat × ν → Bool} {f : Form ν} {c : Nat × ν}
    (h : .child c ∈ f.numbered.pieces closed) : c.2 ∈ f.children := by
  rw [← map_snd_numbered f, children_map]
  exact List.mem_map_of_mem (mem_pieces.mp h)

theorem numbered_map (g : ν → μ) (f : Form ν) : (f.map g).numbered = f.numbered.map (Prod.map id g) := by
  apply ext_own
  · rw [numbered, own_mapIdx, own_map, own_map, numbered, own_mapIdx]
  · rw [children_numbered, children_map, children_map, children_numbered, mapIdx_map, map_mapIdx]
    rfl

def script (closed : ν → Bool) (script : ν → List Mark) (f : Form ν) : List Mark :=
  .enter [] :: ((f.numbered.pieces fun c => closed c.2).flatMap (Piece.marks script) ++ [.leave []])

theorem script_map (g : ν → μ) (closed : μ → Bool) (script : μ → List Mark) (f : Form ν) :
    (f.map g).script closed script = f.script (fun c => closed (g c)) fun c => script (g c) := by
  have hmarks (p : Piece (Nat × ν)) : (p.map (Prod.map id g)).marks script = p.marks fun c => script (g c) := by
    cases p <;> rfl
  unfold Form.script
  rw [numbered_map, pieces_map, List.flatMap_map]
  simp only [hmarks]
  rfl

end Form

namespace Node

/-- The text of a tree with the beginning and the end of each node. -/
def script (n : Node) : List Mark :=
  (n.fold fun f => (f.endsWithBody, f.script Prod.fst Prod.snd)).2

theorem script_mk (f : Form Node) : script (mk f) = f.script closed script := by
  have hclosed (c : Node) : (c.fold fun f => (f.endsWithBody, f.script Prod.fst Prod.snd)).1 = c.closed := by
    obtain ⟨g⟩ := c
    rw [fold_mk]
    cases g <;> rfl
  unfold script
  rw [fold_mk, Form.script_map]
  simp only [hclosed]

theorem spoken_script (n : Node) : String.join (n.script.map Mark.spoken) = n.render := by
  induction n using induct with
  | step f ih =>
    have hpiece : ∀ p ∈ f.numbered.pieces fun c => c.2.closed,
        String.join ((p.marks script).map Mark.spoken) = (p.map Prod.snd).speak render := by
      intro p hp
      cases p with
      | text s => simp [Piece.marks, Piece.map, Piece.speak, Mark.spoken]
      | child c =>
        have hunder : (Mark.spoken ∘ Mark.under [c.1]) = Mark.spoken := funext (Mark.spoken_under [c.1])
        simp only [Piece.marks, Piece.map, Piece.speak, List.map_map, hunder]
        exact ih c.2 (Form.mem_of_numbered hp)
    have hf : f.pieces closed = (f.numbered.pieces fun c => c.2.closed).map (Piece.map Prod.snd) := by
      rw [← Form.pieces_map, Form.map_snd_numbered]
    rw [script_mk, render_mk, hf, List.map_map, Form.script]
    simp only [List.map_cons, List.map_append, List.map_nil, String.join_cons, String.join_append, join_flatMap,
      Mark.spoken, String.join_nil, String.empty_append, String.append_empty]
    rw [List.map_congr_left hpiece]
    rfl

theorem entered_script (n : Node) : n.script.flatMap Mark.entered = n.positions := by
  induction n using induct with
  | step f ih =>
    have hpiece : ∀ p ∈ f.numbered.pieces fun c => c.2.closed,
        (p.marks script).flatMap Mark.entered = p.nodes.flatMap fun c => c.2.positions.map (c.1 :: ·) := by
      intro p hp
      cases p with
      | text s => rfl
      | child c =>
        simp only [Piece.marks, Piece.nodes, List.flatMap_map, Mark.entered_under, List.flatMap_singleton,
          ← ih c.2 (Form.mem_of_numbered hp)]
        rw [List.map_flatMap]
        rfl
    have hchildren :
        (f.numbered.pieces fun c => c.2.closed).flatMap (fun p => (p.marks script).flatMap Mark.entered) =
        (f.children.mapIdx fun i c => c.positions.map (i :: ·)).flatten := by
      rw [List.flatMap_congr hpiece, ← List.flatMap_assoc, Form.nodes_pieces, Form.children_numbered,
        List.flatMap_def, Form.map_mapIdx]
    rw [script_mk, positions_mk, Form.script]
    simp only [List.flatMap_cons, List.flatMap_append, List.flatMap_assoc, hchildren, Mark.entered,
      List.flatMap_nil, List.append_nil]
    rfl

theorem script_at : ∀ {p : Position} {n m : Node}, n.at? p = some m →
    ∃ before after, n.script = before ++ (m.script.map (Mark.under p) ++ after)
  | [], n, m, h => by
    cases h
    refine ⟨[], [], ?_⟩
    rw [show Mark.under [] = id from funext Mark.under_nil]
    simp
  | i :: p, mk f, m, h => by
    obtain ⟨c, hc, hm⟩ := Option.bind_eq_some_iff.mp h
    obtain ⟨before, after, hs⟩ := script_at hm
    have hmem : Piece.child (i, c) ∈ f.numbered.pieces fun c => c.2.closed := by
      rw [Form.mem_pieces, Form.children_numbered, List.mem_mapIdx]
      obtain ⟨hi, rfl⟩ := List.getElem?_eq_some_iff.mp hc
      exact ⟨i, hi, rfl⟩
    obtain ⟨ps, qs, hps⟩ := List.append_of_mem hmem
    refine ⟨.enter [] :: (ps.flatMap (Piece.marks script) ++ before.map (Mark.under [i])),
      after.map (Mark.under [i]) ++ (qs.flatMap (Piece.marks script) ++ [.leave []]), ?_⟩
    have hunder : (Mark.under [i] ∘ Mark.under p) = Mark.under (i :: p) := funext (Mark.under_under [i] p)
    rw [script_mk, Form.script, hps]
    simp [Piece.marks, hs, hunder]

theorem spoken_under (p : Position) (n : Node) :
    String.join ((n.script.map (Mark.under p)).map Mark.spoken) = n.render := by
  have hunder : (Mark.spoken ∘ Mark.under p) = Mark.spoken := funext (Mark.spoken_under p)
  rw [List.map_map, hunder, spoken_script]

/-- A node is rendered as the weave of its glue with the texts of its children. The glue is that of every node
with the same data of its own, as long as the statements of a block of code are closed alike. So each position of
the tree is entered once, in pre-order, and left with the text of its node said. -/
theorem render_compositional (n : Node) :
    (n.glue.length = n.children.length + 1 ∧ n.render = weave n.glue (n.children.map render)) ∧
    (∀ m : Node, m.form.own = n.form.own →
      (n.form.terminates = true → m.children.map closed = n.children.map closed) →
      m.glue = n.glue ∧ (m.children.map render = n.children.map render → m.render = n.render)) ∧
    (String.join (n.script.map Mark.spoken) = n.render ∧ n.script.flatMap Mark.entered = n.positions ∧
      n.positions.Nodup ∧ (∀ p, p ∈ n.positions ↔ ∃ m, n.at? p = some m) ∧
      ∀ p m, n.at? p = some m → ∃ before after, n.script = before ++ (m.script.map (Mark.under p) ++ after) ∧
        String.join ((m.script.map (Mark.under p)).map Mark.spoken) = m.render) := by
  refine ⟨⟨n.length_glue, n.render_eq_weave⟩, ?_, n.spoken_script, n.entered_script, n.positions_nodup,
    fun p => mem_positions, ?_⟩
  · intro m ho hc
    have hg : m.glue = n.glue := glue_congr ho hc
    refine ⟨hg, ?_⟩
    intro hr
    rw [m.render_eq_weave, n.render_eq_weave, hg, hr]
  · intro p m hm
    obtain ⟨before, after, hs⟩ := script_at hm
    exact ⟨before, after, hs, spoken_under p m⟩

end Node

end SharpTree
