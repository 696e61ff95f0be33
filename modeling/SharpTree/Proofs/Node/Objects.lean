import SharpTree.Proofs.CSharp.Placeholders
import SharpTree.Proofs.Node.Depth

/-!
# Objects of a written tree

Every node is written as one object. A property has two more, one for its
declarator and one for its accessors, and a literal has those of its value. So
the nodes of a tree, and those that are not supported, can be counted in what is
written for the tree (`objects_toValue`).
-/

namespace SharpTree

open Json (Value Number)

namespace Json.Value

mutual
/-- The objects inside a value, in the order of their opening brackets, each as the list of its members. -/
def objects : Value → List (List (String × Value))
  | .arr vs => objectsItems vs
  | .obj ms => ms :: objectsMembers ms
  | _ => []
def objectsItems : List Value → List (List (String × Value))
  | [] => []
  | v :: vs => v.objects ++ objectsItems vs
def objectsMembers : List (String × Value) → List (List (String × Value))
  | [] => []
  | (_, v) :: ms => v.objects ++ objectsMembers ms
end

theorem objectsItems_eq_flatMap (vs : List Value) : objectsItems vs = vs.flatMap objects := by
  induction vs with
  | nil => rfl
  | cons v vs ih => rw [objectsItems, ih, List.flatMap_cons]

theorem objectsMembers_eq_flatMap (ms : List (String × Value)) :
    objectsMembers ms = ms.flatMap fun m => m.2.objects := by
  induction ms with
  | nil => rfl
  | cons m ms ih => rw [objectsMembers, ih, List.flatMap_cons]

def IsScalar : Value → Prop
  | .arr _ | .obj _ => False
  | _ => True

theorem IsScalar.objects_eq_nil {v : Value} (h : v.IsScalar) : v.objects = [] := by
  cases v with
  | arr vs => exact h.elim
  | obj ms => exact h.elim
  | _ => rfl

theorem objects_mapNumbers (g : Number → Number) (v : Value) :
    (v.mapNumbers g).objects = v.objects.map (List.map fun m => (m.1, m.2.mapNumbers g)) := by
  induction v using induct with
  | arr vs ih =>
    simp only [mapNumbers, objects, mapNumbersItems_eq_map, objectsItems_eq_flatMap, List.flatMap_map,
      List.map_flatMap]
    exact List.flatMap_congr ih
  | obj ms ih =>
    simp only [mapNumbers, objects, mapNumbersMembers_eq_map, objectsMembers_eq_flatMap, List.flatMap_map,
      List.map_flatMap, List.map_cons]
    rw [List.flatMap_congr ih]
  | _ => rfl

end Json.Value

/-! ## One layer -/

/-- The objects that are written for the contents of a field, those of the nodes inside them aside. -/
def Shape.objectsIn : (s : Shape) → s.Carrier Value → List (List (String × Value))
  | declarator, d => [("type", .str Kind.declarator.name) :: d.members]
  | accessors, as => [as.map fun b => (b.1.key, b.2)]
  | literal, v => v.objects
  | _, _ => []

theorem Shape.objects_write (s : Shape) (x : s.Carrier Value) :
    (s.write x).toList.flatMap Value.objects = s.objectsIn x ++ (s.nodesIn x).flatMap Value.objects := by
  cases s with
  | declarator =>
    obtain ⟨t, n, v⟩ := x
    cases v <;> simp [write, objectsIn, nodesIn, Declarator.members, Declarator.children, Value.objects,
      Value.objectsMembers_eq_flatMap]
  | modifiers =>
    cases x with
    | none => rfl
    | some ms => simp [write, objectsIn, nodesIn, Value.objects, Value.objectsItems_eq_flatMap, List.flatMap_map]
  | optionalNode => cases x <;> simp [write, objectsIn, nodesIn]
  | _ => simp [write, objectsIn, nodesIn, Value.objects, Value.objectsItems_eq_flatMap,
      Value.objectsMembers_eq_flatMap, List.flatMap_map]

theorem Record.objects_members (fs : List Field) (r : Record Value fs) :
    (Value.objectsMembers (Record.members fs r)).Perm
      (Record.gather Shape.objectsIn fs r ++ (Record.gather Shape.nodesIn fs r).flatMap Value.objects) := by
  have hfields : Value.objectsMembers (Record.members fs r) =
      (Record.entries fs r).flatMap fun e => e.1.shape.objectsIn e.2 ++
        (e.1.shape.nodesIn e.2).flatMap Value.objects := by
    rw [Value.objectsMembers_eq_flatMap, members_eq_filterMap]
    induction Record.entries fs r with
    | nil => rfl
    | cons e es ih =>
      rw [List.flatMap_cons, ← e.1.shape.objects_write e.2, ← ih, List.filterMap_cons]
      cases e.1.shape.write e.2 <;> simp
  rw [hfields, gather, gather, List.flatMap_assoc]
  exact (List.flatMap_append_perm ..).symm

namespace Form

def members (f : Form Value) : List (String × Value) :=
  ("type", .str f.kind.name) :: Record.members f.kind.fields f.toRecord

/-- The objects that are written for a form besides its own and those of its children. -/
def inner : Form Value → List (List (String × Value))
  | property _ d accessors =>
    [("type", .str Kind.declarator.name) :: d.members, accessors.map fun b => (b.1.key, b.2)]
  | stringLit v | numberLit v | booleanLit v => v.objects
  | _ => []

theorem inner_ofRecord (k : Kind) (r : Record Value k.fields) :
    (ofRecord k r).inner = Record.gather Shape.objectsIn k.fields r := by
  cases k <;> simp [ofRecord, inner, Record.gather, Record.entries, Shape.objectsIn]

theorem members_ofRecord (k : Kind) (r : Record Value k.fields) :
    (ofRecord k r).members = ("type", .str k.name) :: Record.members k.fields r := by
  cases k <;> rfl

theorem objects_write (f : Form Value) :
    f.write.objects.Perm (f.members :: (f.inner ++ f.children.flatMap Value.objects)) := by
  apply List.Perm.cons
  obtain ⟨k, r, rfl⟩ := f.exists_record
  change (Value.objectsMembers (ofRecord k r).members).Perm _
  rw [members_ofRecord, inner_ofRecord]
  apply (Record.objects_members k.fields r).trans
  exact ((children_perm_ofRecord r).symm.flatMap_right _).append_left _

def literals {ν : Type} : Form ν → List Value
  | stringLit v | numberLit v | booleanLit v => [v]
  | _ => []

/-- Only a node of no known kind is written as an object with nothing but such a tag. -/
theorem members_eq_iff (f : Form Value) : f.members = [("type", .str "Unsupported")] ↔ f = .unsupported := by
  constructor
  · intro h
    have hname : f.kind.name = "Unsupported" := by
      simp only [members, List.cons.injEq, Prod.mk.injEq, Value.str.injEq, true_and] at h
      exact h.1
    cases f <;> first | rfl | simp [kind, Kind.name] at hname
  · intro h
    rw [h]
    rfl

end Form

/-! ## Trees -/

namespace Node

def propertyCount : Node → Nat :=
  fold fun f => (if f.kind = .property then 1 else 0) + f.children.foldr (· + ·) 0

theorem nodeCount_mk (f : Form Node) : (mk f).nodeCount = 1 + (f.children.map nodeCount).sum := by
  unfold nodeCount
  rw [fold_mk, Form.children_map]
  rfl

theorem propertyCount_mk (f : Form Node) : (mk f).propertyCount =
    (if f.kind = .property then 1 else 0) + (f.children.map propertyCount).sum := by
  have hkind : (f.map propertyCount).kind = f.kind := by
    cases f <;> rfl
  unfold propertyCount at hkind ⊢
  rw [fold_mk, Form.children_map, hkind]
  rfl

theorem countP_objects_mk (p : List (String × Value) → Bool) (f : Form Node) :
    (mk f).toValue.objects.countP p = (if p (f.map toValue).members then 1 else 0) +
      (f.map toValue).inner.countP p + (f.children.map fun c => c.toValue.objects.countP p).sum := by
  rw [toValue_mk, (Form.objects_write _).countP_eq, List.countP_cons, List.countP_append, Form.children_map,
    List.flatMap_map, List.countP_flatMap, Nat.add_comm, ← Nat.add_assoc]
  rfl

theorem toValue_ne_str (n : Node) (s : String) : n.toValue ≠ .str s := by
  obtain ⟨f⟩ := n
  rw [toValue_mk]
  unfold Form.write
  simp

section

variable {f : Form Node} (h : ∀ u ∈ f.literals, u.IsScalar)

include h

theorem length_inner : (f.map toValue).inner.length = if f.kind = .property then 2 else 0 := by
  cases f with
  | stringLit v | numberLit v | booleanLit v =>
    have hv := (h v (by simp [Form.literals])).objects_eq_nil
    simp [Form.map, Form.inner, Form.kind, hv]
  | _ => simp [Form.map, Form.inner, Form.kind]

/-- The declarator of a property has fields, and its accessors are nodes, so neither is mistaken for a node. -/
theorem count_inner : (f.map toValue).inner.count [("type", .str "Unsupported")] = 0 := by
  rw [List.count_eq_zero]
  cases f with
  | property ms d accessors =>
    intro hmem
    simp only [Form.map, Form.inner, List.mem_cons, List.not_mem_nil, or_false] at hmem
    rcases hmem with hmem | hmem
    · simp [Declarator.members] at hmem
    · rw [List.map_map] at hmem
      obtain ⟨b, -, hb⟩ := List.map_eq_singleton_iff.mp hmem.symm
      exact b.2.toValue_ne_str _ (Prod.mk.inj hb).2
  | stringLit v | numberLit v | booleanLit v =>
    simp [Form.map, Form.inner, (h v (by simp [Form.literals])).objects_eq_nil]
  | _ => simp [Form.map, Form.inner]

end

variable {n : Node}

theorem length_objects (h : n.Everywhere fun m => ∀ u ∈ m.form.literals, u.IsScalar) :
    n.toValue.objects.length = n.nodeCount + 2 * n.propertyCount := by
  induction n using induct with
  | step f ih =>
    obtain ⟨hf, hc⟩ := everywhere_mk.mp h
    have hmk := countP_objects_mk (fun _ => true) f
    have hchildren : (f.children.map fun c => c.toValue.objects.length) =
        f.children.map fun c => c.nodeCount + (c.propertyCount + c.propertyCount) := by
      apply List.map_congr_left
      intro c hcf
      rw [ih c hcf (hc c hcf), Nat.two_mul]
    simp only [List.countP_true, if_true] at hmk
    rw [hmk, length_inner (f := f) hf, hchildren, List.sum_map_add, List.sum_map_add, nodeCount_mk,
      propertyCount_mk]
    by_cases hk : f.kind = .property
    · simp only [if_pos hk]
      omega
    · simp only [if_neg hk]
      omega

theorem count_objects (h : n.Everywhere fun m => ∀ u ∈ m.form.literals, u.IsScalar) :
    n.toValue.objects.count [("type", .str "Unsupported")] = n.unsupportedCount := by
  induction n using induct with
  | step f ih =>
    obtain ⟨hf, hc⟩ := everywhere_mk.mp h
    have hself : (f.map toValue).members = [("type", .str "Unsupported")] ↔ f = .unsupported := by
      rw [Form.members_eq_iff]
      cases f <;> simp [Form.map]
    have hinner := count_inner (f := f) hf
    have hchildren := List.map_congr_left fun c hcf => ih c hcf (hc c hcf)
    unfold List.count at hinner hchildren ⊢
    rw [countP_objects_mk, hinner, hchildren, unsupportedCount_mk]
    simp only [beq_iff_eq, hself]
    omega

end Node

def Json.Value.Counts (v : Value) (n : Node) : Prop :=
  v.objects.length = n.nodeCount + 2 * n.propertyCount ∧
    v.objects.count [("type", .str "Unsupported")] = n.unsupportedCount

theorem Json.Value.Counts.mapNumbers {v : Value} {n : Node} (h : v.Counts n) (g : Number → Number) :
    (v.mapNumbers g).Counts n := by
  have hstr (u : Value) (s : String) : u.mapNumbers g = .str s ↔ u = .str s := by
    cases u <;> simp [Value.mapNumbers]
  have hsame (ms : List (String × Value)) :
      ms.map (fun m => (m.1, m.2.mapNumbers g)) = [("type", .str "Unsupported")] ↔
        ms = [("type", .str "Unsupported")] := by
    simp [List.map_eq_singleton_iff, hstr]
  obtain ⟨hlength, hcount⟩ := h
  unfold Counts List.count at *
  rw [objects_mapNumbers, List.length_map, ← hcount, List.countP_map]
  refine ⟨hlength, List.countP_congr fun ms _ => ?_⟩
  simp [hsame]

namespace Node

/-- There is an object for each node that is written, and two more for each property. -/
theorem objects_toValue {n : Node} (h : n.Everywhere fun m => ∀ u ∈ m.form.literals, u.IsScalar) :
    n.toValue.Counts n ∧
      ((n.Everywhere fun m => ∀ x ∈ m.form.numbers, x.Storable) →
        ∀ text, text = n.toValue.compact ∨ text = n.toValue.pretty →
          ∃ v : Value, v.Document text.toList ∧ v.Counts n) := by
  have hvalue : n.toValue.Counts n := ⟨length_objects h, count_objects h⟩
  refine ⟨hvalue, ?_⟩
  intro hnumbers text htext
  obtain ⟨g, hcompact, hpretty⟩ := exists_document hnumbers
  refine ⟨_, ?_, hvalue.mapNumbers g⟩
  rcases htext with rfl | rfl
  · exact hcompact
  · exact hpretty

def oddProperty : Node :=
  mk (.property none ⟨ident "int", ident "Count", some (mk (.numberLit (.num (.int 1))))⟩
    [(.get, ident "count"), (.other "type", mk .unsupported)])

theorem objects_toValue_property :
    (mk (.program [oddProperty, mk .unsupported])).toValue.objects.length = 8 + 2 ∧
      (mk (.program [oddProperty, mk .unsupported])).toValue.objects.count [("type", .str "Unsupported")] = 2 := by
  have hscalar : (mk (.program [oddProperty, mk .unsupported])).Everywhere
      fun m => ∀ u ∈ m.form.literals, u.IsScalar := by
    unfold oddProperty ident
    simp [everywhere_mk, form, Form.children, Form.literals, Value.IsScalar]
  exact (objects_toValue hscalar).1

end Node

end SharpTree
