import SharpTree.Proofs.CSharp.Pieces

/-!
# Infix expressions and their grouping

An operation is rendered as its operands with the operator between them, and
without parentheses. So the text of an expression tells its names and operators
in their order, but not how they are grouped: two expressions have the same text
if and only if one comes from the other by regrouping.
-/

namespace SharpTree.Node

def operators : List String :=
  ["+", "-", "*", "/"]

/-- Expressions of operations on names, where `letter` tells the characters of names. -/
inductive Arithmetic (letter : Char → Bool) : Node → Prop where
  | name {s : String} (h : ∀ c ∈ s.toList, letter c = true) : Arithmetic letter (mk (.identifier s))
  | operation {l r : Node} {op : String} (hl : Arithmetic letter l) (hop : op ∈ operators)
      (hr : Arithmetic letter r) : Arithmetic letter (mk (.operation l op r))

def isArithmetic (letter : Char → Bool) : Node → Bool :=
  fold fun
    | .identifier s => s.toList.all letter
    | .operation l op r => l && operators.contains op && r
    | _ => false

theorem isArithmetic_operation (letter : Char → Bool) (l r : Node) (op : String) :
    isArithmetic letter (mk (.operation l op r)) =
      (l.isArithmetic letter && operators.contains op && r.isArithmetic letter) := by
  unfold isArithmetic
  rw [fold_mk]
  rfl

theorem isArithmetic_iff {letter : Char → Bool} {n : Node} :
    n.isArithmetic letter = true ↔ n.Arithmetic letter := by
  constructor
  · intro h
    induction n using induct with
    | step f ih =>
      cases f with
      | identifier s =>
        unfold isArithmetic at h
        rw [fold_mk] at h
        exact .name (List.all_eq_true.mp h)
      | operation l op r =>
        simp only [isArithmetic_operation, Bool.and_eq_true, List.contains_iff_mem] at h
        exact .operation (ih l (by simp [Form.children]) h.1.1) h.1.2 (ih r (by simp [Form.children]) h.2)
      | _ =>
        unfold isArithmetic at h
        rw [fold_mk] at h
        cases h
  · intro h
    induction h with
    | name h =>
      unfold isArithmetic
      rw [fold_mk]
      exact List.all_eq_true.mpr h
    | operation _ hop _ ihl ihr => simp [isArithmetic_operation, ihl, ihr, hop]

instance (letter : Char → Bool) (n : Node) : Decidable (n.Arithmetic letter) :=
  decidable_of_iff _ isArithmetic_iff

/-- Expressions that differ in how their operations are grouped. -/
inductive Regrouped : Node → Node → Prop where
  | rotate (x y z : Node) (o p : String) :
    Regrouped (mk (.operation (mk (.operation x o y)) p z)) (mk (.operation x o (mk (.operation y p z))))
  | operation {l l' r r' : Node} (op : String) (hl : Regrouped l l') (hr : Regrouped r r') :
    Regrouped (mk (.operation l op r)) (mk (.operation l' op r'))
  | refl (n : Node) : Regrouped n n
  | symm {m n : Node} (h : Regrouped m n) : Regrouped n m
  | trans {m n k : Node} (h₁ : Regrouped m n) (h₂ : Regrouped n k) : Regrouped m k

theorem render_operation (l r : Node) (op : String) :
    render (mk (.operation l op r)) = l.render ++ " " ++ op ++ " " ++ r.render :=
  render_eq_text _

theorem Regrouped.render_eq {m n : Node} (h : Regrouped m n) : m.render = n.render := by
  induction h with
  | rotate x y z o p => simp only [render_operation, String.append_assoc]
  | operation op _ _ ihl ihr => rw [render_operation, render_operation, ihl, ihr]
  | refl n => rfl
  | symm _ ih => exact ih.symm
  | trans _ _ ih₁ ih₂ => exact ih₁.trans ih₂

/-! ## Names and operators in a row -/

def row : Node → List String :=
  fold fun
    | .identifier s => [s]
    | .operation l op r => l ++ op :: r
    | _ => []

theorem row_identifier (s : String) : row (mk (.identifier s)) = [s] := by
  unfold row
  rw [fold_mk]
  rfl

theorem row_operation (l r : Node) (op : String) : row (mk (.operation l op r)) = l.row ++ op :: r.row := by
  unfold row
  rw [fold_mk]
  rfl

section
variable {letter : Char → Bool} {m n : Node}

theorem Arithmetic.row_ne_nil (h : n.Arithmetic letter) : n.row ≠ [] := by
  cases h with
  | name => simp [row_identifier]
  | operation => simp [row_operation]

theorem Arithmetic.render_eq_row (h : n.Arithmetic letter) : n.render = " ".intercalate n.row := by
  induction h with
  | @name s _ =>
    rw [row_identifier, String.intercalate_singleton]
    exact render_eq_text _
  | @operation l r op hl _ hr ihl ihr =>
    rw [render_operation, row_operation, String.intercalate_append_of_ne_nil hl.row_ne_nil (by simp),
      String.intercalate_cons_of_ne_nil hr.row_ne_nil, ihl, ihr]
    simp only [String.append_assoc]

theorem Arithmetic.blank_not_mem_row (h : n.Arithmetic letter) (hblank : letter ' ' = false) :
    ∀ s ∈ n.row, ' ' ∉ s.toList := by
  induction h with
  | @name s h =>
    intro t ht hmem
    rw [row_identifier, List.mem_singleton] at ht
    subst ht
    rw [h ' ' hmem] at hblank
    cases hblank
  | @operation l r op _ hop _ ihl ihr =>
    have hops : ∀ o ∈ operators, ' ' ∉ o.toList := by decide
    intro t ht
    rw [row_operation, List.mem_append, List.mem_cons] at ht
    rcases ht with ht | rfl | ht
    · exact ihl t ht
    · exact hops t hop
    · exact ihr t ht

theorem Arithmetic.splitOn_render (h : n.Arithmetic letter) (hblank : letter ' ' = false) :
    n.render.toList.splitOn ' ' = n.row.map String.toList := by
  rw [h.render_eq_row, String.toList_intercalate]
  apply List.splitOn_intercalate
  · intro w hw
    obtain ⟨s, hs, rfl⟩ := List.mem_map.mp hw
    exact h.blank_not_mem_row hblank s hs
  · simpa using h.row_ne_nil

theorem Arithmetic.row_eq (hm : m.Arithmetic letter) (hn : n.Arithmetic letter) (hblank : letter ' ' = false)
    (h : m.render = n.render) : m.row = n.row := by
  have hsplit := hm.splitOn_render hblank
  rw [h, hn.splitOn_render hblank] at hsplit
  exact ((List.map_inj_right fun _ _ => String.toList_inj.mp).mp hsplit).symm

/-! ## Grouping to the right -/

/-- The expression with a row of names and operators in which every operation is the right operand
of the one before. -/
def ofRow : List String → Node
  | [] => mk .unsupported
  | [s] => mk (.identifier s)
  | s :: op :: rest => mk (.operation (mk (.identifier s)) op (ofRow rest))

theorem Arithmetic.regrouped_append (h : m.Arithmetic letter) (op : String) (rest : List String) :
    Regrouped (mk (.operation m op (ofRow rest))) (ofRow (m.row ++ op :: rest)) := by
  -- the row after `m` grows from the right operand to the left one
  induction h generalizing op rest with
  | @name s _ =>
    rw [row_identifier]
    exact .refl _
  | @operation l r o _ _ _ ihl ihr =>
    have hright := Regrouped.operation o (.refl l) (ihr op rest)
    rw [row_operation, List.append_assoc, List.cons_append]
    exact ((Regrouped.rotate l r (ofRow rest) o op).trans hright).trans (ihl o (r.row ++ op :: rest))

theorem Arithmetic.regrouped_ofRow (h : n.Arithmetic letter) : Regrouped n (ofRow n.row) := by
  induction h with
  | @name s _ =>
    rw [row_identifier]
    exact .refl _
  | @operation l r op hl _ _ _ ihr =>
    rw [row_operation]
    exact (Regrouped.operation op (.refl l) ihr).trans (hl.regrouped_append op r.row)

/-! ## Equal groupings -/

/-- An expression with its names and operators blotted out. -/
def grouping : Node → Node :=
  fold fun
    | .identifier _ => mk (.identifier "")
    | .operation l _ r => mk (.operation l "" r)
    | f => mk f

theorem grouping_identifier (s : String) : grouping (mk (.identifier s)) = mk (.identifier "") := by
  unfold grouping
  rw [fold_mk]
  rfl

theorem grouping_operation (l r : Node) (op : String) :
    grouping (mk (.operation l op r)) = mk (.operation l.grouping "" r.grouping) := by
  unfold grouping
  rw [fold_mk]
  rfl

theorem Arithmetic.length_row (hm : m.Arithmetic letter) (hn : n.Arithmetic letter) (h : m.grouping = n.grouping) :
    m.row.length = n.row.length := by
  induction hm generalizing n with
  | name =>
    cases hn with
    | name => rw [row_identifier, row_identifier]; rfl
    | operation => simp [grouping_identifier, grouping_operation] at h
  | operation _ _ _ ihl ihr =>
    cases hn with
    | name => simp [grouping_identifier, grouping_operation] at h
    | operation hl' _ hr' =>
      simp only [grouping_operation, mk.injEq, Form.operation.injEq, true_and] at h
      rw [row_operation, row_operation, List.length_append, List.length_append, List.length_cons, List.length_cons,
        ihl hl' h.1, ihr hr' h.2]

theorem Arithmetic.eq_of_row (hm : m.Arithmetic letter) (hn : n.Arithmetic letter) (h : m.grouping = n.grouping)
    (hrow : m.row = n.row) : m = n := by
  induction hm generalizing n with
  | name =>
    cases hn with
    | name =>
      rw [row_identifier, row_identifier] at hrow
      cases hrow
      rfl
    | operation => simp [grouping_identifier, grouping_operation] at h
  | operation hl _ hr ihl ihr =>
    cases hn with
    | name => simp [grouping_identifier, grouping_operation] at h
    | operation hl' _ hr' =>
      simp only [grouping_operation, mk.injEq, Form.operation.injEq, true_and] at h
      rw [row_operation, row_operation] at hrow
      obtain ⟨hleft, hright⟩ := List.append_inj hrow (hl.length_row hl' h.1)
      obtain ⟨hop, hright⟩ := List.cons.inj hright
      rw [ihl hl' h.1 hleft, hop, ihr hr' h.2 hright]

/-- Two expressions have the same text if and only if they differ in grouping only, and those of one grouping are
equal if their texts are. -/
theorem render_eq_iff_regrouped (hblank : letter ' ' = false) (hm : m.Arithmetic letter)
    (hn : n.Arithmetic letter) :
    (m.render = n.render ↔ Regrouped m n) ∧ (m.render = n.render → m.grouping = n.grouping → m = n) := by
  refine ⟨⟨?_, Regrouped.render_eq⟩, ?_⟩
  · intro h
    have hofRow := hn.regrouped_ofRow
    rw [← hm.row_eq hn hblank h] at hofRow
    exact hm.regrouped_ofRow.trans hofRow.symm
  · intro h hgrouping
    exact hm.eq_of_row hn hgrouping (hm.row_eq hn hblank h)

end

theorem render_eq_iff_regrouped_minus :
    Regrouped
      (mk (.operation (mk (.operation (mk (.identifier "a")) "-" (mk (.identifier "b")))) "-"
        (mk (.identifier "c"))))
      (mk (.operation (mk (.identifier "a")) "-"
        (mk (.operation (mk (.identifier "b")) "-" (mk (.identifier "c")))))) :=
  (render_eq_iff_regrouped (show Char.isAlpha ' ' = false by decide) (by decide) (by decide)).1.mp (by decide)

/-- The text `a - b - c` is that of a difference whose left operand is one, and of one whose right operand is. -/
theorem render_not_injective :
    ¬ ∀ m n : Node, m.Arithmetic Char.isAlpha → n.Arithmetic Char.isAlpha → m.render = n.render → m = n := by
  intro h
  have heq := h
    (mk (.operation (mk (.operation (mk (.identifier "a")) "-" (mk (.identifier "b")))) "-" (mk (.identifier "c"))))
    (mk (.operation (mk (.identifier "a")) "-" (mk (.operation (mk (.identifier "b")) "-" (mk (.identifier "c"))))))
    (by decide) (by decide) (by decide)
  exact absurd heq (by decide)

end SharpTree.Node
