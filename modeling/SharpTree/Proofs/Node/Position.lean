import Mathlib.Data.List.Nodup
import SharpTree.Node.Basic

/-!
# Positions in a tree

A position leads from the root of a tree to one of its nodes: each number on it
is the index of a child. The positions of a tree are listed in pre-order, and
the node at a position may be replaced by another tree.
-/

namespace SharpTree

namespace Form

variable {ν μ : Type}

def mapIdx (g : Nat → ν → μ) : Form ν → Form μ
  | program body => program (body.mapIdx g)
  | block kind body => block kind (body.mapIdx g)
  | typeDecl ms name body => typeDecl ms (g 0 name) (g 1 body)
  | function ms result name params body =>
    -- the name comes second if there is a result type
    let k := result.toList.length
    function ms (result.map (g 0)) (g k name) (params.mapIdx fun i => g (k + 1 + i))
      (g (k + 1 + params.length) body)
  | declarator d => declarator ⟨g 0 d.varType, g 1 d.varName, d.value.map (g 2)⟩
  | localVar d => localVar (g 0 d)
  | member ms d => member ms (g 0 d)
  | property ms d accessors =>
    property ms ⟨g 0 d.varType, g 1 d.varName, d.value.map (g (2 + accessors.length))⟩
      (accessors.mapIdx fun i (a, body) => (a, g (2 + i) body))
  | identifier name => identifier name
  | path curr next => path (g 0 curr) (next.map (g 1))
  | importing target => importing (g 0 target)
  | call callee args => call (g 0 callee) (args.mapIdx fun i => g (1 + i))
  | access left right => access (g 0 left) (g 1 right)
  | index source position => index (g 0 source) (g 1 position)
  | arrayOf target => arrayOf (g 0 target)
  | creation target => creation (g 0 target)
  | assignment dest source => assignment (g 0 dest) (g 1 source)
  | operation left op right => operation (g 0 left) op (g 1 right)
  | stringLit v => stringLit v
  | numberLit v => numberLit v
  | booleanLit v => booleanLit v
  | conditional c body => conditional (g 0 c) (g 1 body)
  | loop c body => loop (g 0 c) (g 1 body)
  | returning v => returning (g 0 v)
  | unsupported => unsupported

theorem map_mapIdx {α β γ : Type} (g : Nat → α → β) (k : β → γ) (as : List α) :
    (as.mapIdx g).map k = as.mapIdx fun i a => k (g i a) := by
  refine List.ext_getElem? fun i => ?_
  simp [Function.comp_def]

theorem mapIdx_map {α β γ : Type} (h : α → β) (g : Nat → β → γ) (as : List α) :
    (as.map h).mapIdx g = as.mapIdx fun i a => g i (h a) := by
  refine List.ext_getElem? fun i => ?_
  simp [Function.comp_def]

theorem mapIdx_const {α β : Type} (h : α → β) (as : List α) : (as.mapIdx fun _ a => h a) = as.map h := by
  refine List.ext_getElem? fun i => ?_
  simp

theorem children_mapIdx (g : Nat → ν → μ) (f : Form ν) : (f.mapIdx g).children = f.children.mapIdx g := by
  cases f with
  | function ms result name params body =>
    cases result <;> simp [mapIdx, children, List.mapIdx_append, Nat.add_comm, Nat.add_left_comm]
  | declarator d => cases h : d.value <;> simp [mapIdx, children, Declarator.children, h]
  | property ms d accessors =>
    cases h : d.value <;> simp [mapIdx, children, h, List.mapIdx_append, map_mapIdx, mapIdx_map, Nat.add_comm 2]
  | path curr next => cases next <;> simp [mapIdx, children]
  | _ => simp [mapIdx, children, Nat.add_comm]

theorem own_mapIdx (g : Nat → ν → μ) (f : Form ν) : (f.mapIdx g).own = f.own := by
  cases f <;> simp [own, mapIdx, map, Declarator.map, Function.comp_def, map_mapIdx, mapIdx_const]

def setChild (f : Form ν) (i : Nat) (c : ν) : Form ν :=
  f.mapIdx fun j old => if j = i then c else old

theorem children_setChild (f : Form ν) (i : Nat) (c : ν) : (f.setChild i c).children = f.children.set i c := by
  rw [setChild, children_mapIdx]
  refine List.ext_getElem? fun j => ?_
  rw [List.getElem?_mapIdx, List.getElem?_set]
  by_cases h : i = j
  · subst h
    cases hc : f.children[i]? with
    | none => simpa using hc
    | some x =>
      obtain ⟨hi, -⟩ := List.getElem?_eq_some_iff.mp hc
      simp [hi]
  · simp [h, Ne.symm h]

theorem own_setChild (f : Form ν) (i : Nat) (c : ν) : (f.setChild i c).own = f.own :=
  own_mapIdx _ f

end Form

/-- A way from the root of a tree to one of its nodes. -/
abbrev Position := List Nat

namespace Node

def at? : Node → Position → Option Node
  | n, [] => some n
  | n, i :: p => n.children[i]?.bind (at? · p)

def replace : Node → Position → Node → Node
  | _, [], m => m
  | n, i :: p, m =>
    match n.children[i]? with
    | some c => mk (n.form.setChild i (replace c p m))
    | none => n

def positions : Node → List Position :=
  fold fun f => [] :: (f.children.mapIdx fun i ps => ps.map (i :: ·)).flatten

theorem positions_mk (f : Form Node) :
    positions (mk f) = [] :: (f.children.mapIdx fun i c => c.positions.map (i :: ·)).flatten := by
  rw [positions, fold_mk, Form.children_map, Form.mapIdx_map]

theorem mem_positions {n : Node} : ∀ {p : Position}, p ∈ n.positions ↔ ∃ m, n.at? p = some m := by
  induction n using induct with
  | step f ih =>
    intro p
    rw [positions_mk, List.mem_cons, List.mem_flatten]
    cases p with
    | nil => simp [at?]
    | cons i p =>
      simp only [reduceCtorEq, false_or, at?, Option.bind_eq_some_iff, List.mem_mapIdx]
      constructor
      · rintro ⟨_, ⟨j, hj, rfl⟩, hp⟩
        obtain ⟨q, hq, e⟩ := List.mem_map.mp hp
        cases e
        obtain ⟨m, hm⟩ := (ih _ (List.getElem_mem hj)).mp hq
        exact ⟨m, _, List.getElem?_eq_getElem hj, hm⟩
      · rintro ⟨m, c, hc, hm⟩
        obtain ⟨hi, rfl⟩ := List.getElem?_eq_some_iff.mp hc
        exact ⟨_, ⟨i, hi, rfl⟩, List.mem_map_of_mem ((ih _ (List.getElem_mem hi)).mpr ⟨m, hm⟩)⟩

theorem positions_nodup (n : Node) : n.positions.Nodup := by
  induction n using induct with
  | step f ih =>
    rw [positions_mk, List.nodup_cons, List.nodup_flatten]
    refine ⟨by simp, fun l hl => ?_, ?_⟩
    · obtain ⟨i, hi, rfl⟩ := List.mem_mapIdx.mp hl
      exact (ih _ (List.getElem_mem hi)).map (List.cons_injective)
    · -- positions below different children differ in their first number
      refine List.pairwise_iff_getElem.mpr fun i j hi hj hij => ?_
      rw [List.getElem_mapIdx, List.getElem_mapIdx]
      intro p hp hq
      obtain ⟨_, -, rfl⟩ := List.mem_map.mp hp
      obtain ⟨_, -, e⟩ := List.mem_map.mp hq
      cases e
      exact Nat.lt_irrefl _ hij

def Everywhere (P : Node → Prop) (n : Node) : Prop :=
  ∀ p m, n.at? p = some m → P m

theorem everywhere_mk {P : Node → Prop} {f : Form Node} :
    (mk f).Everywhere P ↔ P (mk f) ∧ ∀ c ∈ f.children, c.Everywhere P := by
  constructor
  · intro h
    refine ⟨h [] _ rfl, fun c hc p m hm => ?_⟩
    obtain ⟨i, hi⟩ := List.getElem?_of_mem hc
    exact h (i :: p) m (Option.bind_eq_some_iff.mpr ⟨c, hi, hm⟩)
  · rintro ⟨h₀, h⟩ p m hm
    cases p with
    | nil =>
      cases hm
      exact h₀
    | cons i p =>
      obtain ⟨c, hc, hm⟩ := Option.bind_eq_some_iff.mp hm
      exact h c (List.mem_of_getElem? hc) p m hm

theorem at?_append : ∀ (n : Node) (p q : Position), n.at? (p ++ q) = (n.at? p).bind (at? · q)
  | n, [], q => by simp [at?]
  | n, i :: p, q => by
    rw [List.cons_append, at?, at?]
    cases n.children[i]? with
    | none => rfl
    | some c => exact at?_append c p q

theorem Everywhere.at {P : Node → Prop} {n m : Node} {p : Position} (h : n.Everywhere P) (hm : n.at? p = some m) :
    m.Everywhere P := by
  intro q k hk
  refine h (p ++ q) k ?_
  rw [at?_append, hm]
  exact hk

end Node

end SharpTree
