import SharpTree.Node.Form

/-! # Syntax trees

A tree is a form whose children are trees. Whatever is computed from a tree is a fold: a rule that says what a
form is worth whose children have been evaluated. -/

namespace SharpTree

inductive Node where
  | mk (form : Form Node)

namespace Node

def form : Node → Form Node
  | mk f => f

def children (n : Node) : List Node :=
  n.form.children

def ident (name : String) : Node :=
  mk (.identifier name)

theorem sizeOf_lt_of_mem_children {f : Form Node} {c : Node} (h : c ∈ f.children) :
    sizeOf c < sizeOf (mk f) := by
  have hl {l : List Node} (hc : c ∈ l) : sizeOf c < sizeOf l := List.sizeOf_lt_of_mem hc
  have ho {o : Option Node} (hc : o = some c) : sizeOf c < sizeOf o := by simp [hc]
  cases f with
  | program body => simp [Form.children] at h; have := hl h; simp; omega
  | block kind body => simp [Form.children] at h; have := hl h; simp; omega
  | function ms result name params body =>
    simp [Form.children] at h
    rcases h with h | h | h | h
    · have := ho h; simp; omega
    · simp [h]; omega
    · have := hl h; simp; omega
    · simp [h]; omega
  | declarator d =>
    obtain ⟨t, n, v⟩ := d
    simp [Form.children, Declarator.children] at h
    rcases h with h | h | h
    · simp [h]; omega
    · simp [h]; omega
    · have := ho h; simp; omega
  | property ms d accessors =>
    obtain ⟨t, n, v⟩ := d
    simp [Form.children] at h
    rcases h with h | h | ⟨a, h⟩ | h
    · simp [h]; omega
    · simp [h]; omega
    · have := List.sizeOf_lt_of_mem h; simp at this ⊢; omega
    · have := ho h; simp; omega
  | path curr next =>
    simp [Form.children] at h
    rcases h with h | h
    · simp [h]; omega
    · have := ho h; simp; omega
  | call callee args =>
    simp [Form.children] at h
    rcases h with h | h
    · simp [h]; omega
    · have := hl h; simp; omega
  | _ => simp [Form.children] at h <;> grind

theorem induct {P : Node → Prop} (step : ∀ f, (∀ c ∈ f.children, P c) → P (mk f)) : ∀ n, P n
  | mk f => step f fun c _ => induct step c
termination_by n => sizeOf n
decreasing_by exact sizeOf_lt_of_mem_children ‹_›

section
variable {α : Type} (rule : Form α → α)

mutual
def fold : Node → α
  | mk f => rule (foldForm f)
def foldForm : Form Node → Form α
  | .program body => .program (foldList body)
  | .block kind body => .block kind (foldList body)
  | .typeDecl ms name body => .typeDecl ms name.fold body.fold
  | .function ms result name params body =>
    .function ms (foldOption result) name.fold (foldList params) body.fold
  | .declarator d => .declarator (foldDeclarator d)
  | .localVar d => .localVar d.fold
  | .member ms d => .member ms d.fold
  | .property ms d accessors => .property ms (foldDeclarator d) (foldAccessors accessors)
  | .identifier name => .identifier name
  | .path curr next => .path curr.fold (foldOption next)
  | .importing target => .importing target.fold
  | .call callee args => .call callee.fold (foldList args)
  | .access left right => .access left.fold right.fold
  | .index source position => .index source.fold position.fold
  | .arrayOf target => .arrayOf target.fold
  | .creation target => .creation target.fold
  | .assignment dest source => .assignment dest.fold source.fold
  | .operation left op right => .operation left.fold op right.fold
  | .stringLit v => .stringLit v
  | .numberLit v => .numberLit v
  | .booleanLit v => .booleanLit v
  | .conditional c body => .conditional c.fold body.fold
  | .loop c body => .loop c.fold body.fold
  | .returning v => .returning v.fold
  | .unsupported => .unsupported
def foldList : List Node → List α
  | [] => []
  | n :: ns => n.fold :: foldList ns
def foldOption : Option Node → Option α
  | none => none
  | some n => some n.fold
def foldDeclarator : Declarator Node → Declarator α
  | ⟨varType, varName, value⟩ => ⟨varType.fold, varName.fold, foldOption value⟩
def foldAccessors : List (Accessor × Node) → List (Accessor × α)
  | [] => []
  | (a, body) :: rest => (a, body.fold) :: foldAccessors rest
end

theorem foldList_eq_map : ∀ ns : List Node, foldList rule ns = ns.map (fold rule)
  | [] => rfl
  | n :: ns => by rw [foldList, foldList_eq_map ns, List.map_cons]

theorem foldOption_eq_map (o : Option Node) : foldOption rule o = o.map (fold rule) := by
  cases o <;> rfl

theorem foldDeclarator_eq_map (d : Declarator Node) : foldDeclarator rule d = d.map (fold rule) := by
  cases d
  simp only [foldDeclarator, foldOption_eq_map, Declarator.map]

theorem foldAccessors_eq_map :
    ∀ as : List (Accessor × Node), foldAccessors rule as = as.map fun (a, body) => (a, body.fold rule)
  | [] => rfl
  | (a, body) :: as => by rw [foldAccessors, foldAccessors_eq_map as, List.map_cons]

theorem foldForm_eq_map (f : Form Node) : foldForm rule f = f.map (fold rule) := by
  cases f <;>
    simp only [foldForm, Form.map, foldList_eq_map, foldOption_eq_map, foldDeclarator_eq_map,
      foldAccessors_eq_map]

theorem fold_mk (f : Form Node) : fold rule (mk f) = rule (f.map (fold rule)) := by
  rw [fold, foldForm_eq_map]

end

def nodeCount : Node → Nat :=
  fold fun f => 1 + f.children.foldr (· + ·) 0

def unsupportedCount : Node → Nat :=
  fold fun f => (if f = .unsupported then 1 else 0) + f.children.foldr (· + ·) 0

/-- Whether two lists have the same length and each test of the first accepts its partner. -/
def agree : List (Node → Bool) → List Node → Bool
  | [], [] => true
  | test :: tests, n :: ns => test n && agree tests ns
  | _, _ => false

/-- Two trees are equal if their roots are, children aside, and their children are one by one. -/
def beq : Node → Node → Bool :=
  fold fun f n => f.own = n.form.own && agree f.children n.children

theorem beq_mk (f : Form Node) (n : Node) :
    beq (mk f) n = (f.own = n.form.own && agree (f.children.map beq) n.children) := by
  rw [beq, fold_mk, Form.own_map, Form.children_map]

theorem agree_iff : ∀ {ms ns : List Node}, (∀ m ∈ ms, ∀ n, beq m n = true ↔ m = n) →
    (agree (ms.map beq) ns = true ↔ ms = ns)
  | [], [], _ => by simp [agree]
  | [], _ :: _, _ => by simp [agree]
  | _ :: _, [], _ => by simp [agree]
  | m :: ms, n :: ns, h => by
    have hm := h m (by simp) n
    have hms : agree (ms.map beq) ns = true ↔ ms = ns := agree_iff fun m hm => h m (by simp [hm])
    simp only [List.map_cons, agree, Bool.and_eq_true, hm, hms, List.cons.injEq]

theorem beq_iff : ∀ m n : Node, beq m n = true ↔ m = n :=
  induct fun f ih n => by
    obtain ⟨g⟩ := n
    rw [beq_mk, Bool.and_eq_true, decide_eq_true_eq]
    have hc : agree (f.children.map beq) (mk g).children = true ↔ f.children = g.children := agree_iff ih
    rw [hc]
    constructor
    · rintro ⟨ho, hf⟩
      exact congrArg mk (Form.ext_own ho hf)
    · intro h
      cases h
      exact ⟨rfl, rfl⟩

instance : DecidableEq Node := fun m n => decidable_of_iff _ (beq_iff m n)

end Node

end SharpTree
