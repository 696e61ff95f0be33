import SharpTree.Json.Value
import SharpTree.Node.Accessor
import SharpTree.Node.BlockKind
import SharpTree.Node.Modifier

/-! # Forms of nodes

A form is one layer of a syntax tree: a node whose children are of any type. Trees, and what is computed from
them child by child, are built from the same forms. -/

namespace SharpTree

structure Declarator (ν : Type) where
  varType : ν
  varName : ν
  value : Option ν
deriving DecidableEq

inductive Form (ν : Type) where
  | program (body : List ν)
  | block (kind : BlockKind) (body : List ν)
  | typeDecl (modifiers : Option (List Modifier)) (name body : ν)
  | function (modifiers : Option (List Modifier)) (result : Option ν) (name : ν) (params : List ν) (body : ν)
  | declarator (binding : Declarator ν)
  | localVar (declarator : ν)
  | member (modifiers : Option (List Modifier)) (declarator : ν)
  | property (modifiers : Option (List Modifier)) (binding : Declarator ν) (accessors : List (Accessor × ν))
  | identifier (name : String)
  | path (curr : ν) (next : Option ν)
  | importing (target : ν)
  | call (callee : ν) (args : List ν)
  | access (left right : ν)
  | index (source position : ν)
  | arrayOf (target : ν)
  | creation (target : ν)
  | assignment (dest source : ν)
  | operation (left : ν) (operator : String) (right : ν)
  | stringLit (value : Json.Value)
  | numberLit (value : Json.Value)
  | booleanLit (value : Json.Value)
  | conditional (condition body : ν)
  | loop (condition body : ν)
  | returning (value : ν)
  | unsupported
deriving DecidableEq

namespace Declarator

variable {ν μ : Type}

def map (f : ν → μ) (d : Declarator ν) : Declarator μ :=
  ⟨f d.varType, f d.varName, d.value.map f⟩

def children (d : Declarator ν) : List ν :=
  d.varType :: d.varName :: d.value.toList

end Declarator

namespace Form

variable {ν μ : Type}

def map (f : ν → μ) : Form ν → Form μ
  | program body => program (body.map f)
  | block kind body => block kind (body.map f)
  | typeDecl ms name body => typeDecl ms (f name) (f body)
  | function ms result name params body => function ms (result.map f) (f name) (params.map f) (f body)
  | declarator d => declarator (d.map f)
  | localVar d => localVar (f d)
  | member ms d => member ms (f d)
  | property ms d accessors => property ms (d.map f) (accessors.map fun (a, body) => (a, f body))
  | identifier name => identifier name
  | path curr next => path (f curr) (next.map f)
  | importing target => importing (f target)
  | call callee args => call (f callee) (args.map f)
  | access left right => access (f left) (f right)
  | index source position => index (f source) (f position)
  | arrayOf target => arrayOf (f target)
  | creation target => creation (f target)
  | assignment dest source => assignment (f dest) (f source)
  | operation left op right => operation (f left) op (f right)
  | stringLit v => stringLit v
  | numberLit v => numberLit v
  | booleanLit v => booleanLit v
  | conditional c body => conditional (f c) (f body)
  | loop c body => loop (f c) (f body)
  | returning v => returning (f v)
  | unsupported => unsupported

def children : Form ν → List ν
  | program body | block _ body => body
  | typeDecl _ name body => [name, body]
  | function _ result name params body => result.toList ++ name :: (params ++ [body])
  | declarator d => d.children
  | localVar d | member _ d => [d]
  | property _ d accessors => d.varType :: d.varName :: (accessors.map Prod.snd ++ d.value.toList)
  | path curr next => curr :: next.toList
  | importing target | arrayOf target | creation target | returning target => [target]
  | call callee args => callee :: args
  | access a b | index a b | assignment a b | operation a _ b | conditional a b | loop a b => [a, b]
  | identifier _ | stringLit _ | numberLit _ | booleanLit _ | unsupported => []

def own (f : Form ν) : Form Unit :=
  f.map fun _ => ()

theorem children_map (g : ν → μ) (f : Form ν) : (f.map g).children = f.children.map g := by
  cases f with
  | function ms result name params body => cases result <;> simp [map, children]
  | declarator d => cases h : d.value <;> simp [map, children, Declarator.children, Declarator.map, h]
  | property ms d accessors => cases h : d.value <;> simp [map, children, Declarator.map, h, Function.comp_def]
  | path curr next => cases next <;> simp [map, children]
  | _ => simp [map, children]

@[simp] theorem own_map (g : ν → μ) (f : Form ν) : (f.map g).own = f.own := by
  cases f <;> simp [own, map, Declarator.map, Function.comp_def]

theorem toList_inj {a b : Option ν} : a.toList = b.toList ↔ a = b := by
  cases a <;> cases b <;> simp

theorem accessors_ext {as bs : List (Accessor × ν)} (hk : as.map (fun p => (p.1, ())) = bs.map fun p => (p.1, ()))
    (hv : as.map Prod.snd = bs.map Prod.snd) : as = bs := by
  induction as generalizing bs with
  | nil => cases bs <;> simp_all
  | cons a as ih =>
    cases bs with
    | nil => simp at hk
    | cons b bs =>
      simp only [List.map_cons, List.cons.injEq, Prod.mk.injEq, and_true] at hk hv
      rw [ih hk.2 hv.2, Prod.ext hk.1 hv.1]

theorem ext_own {f g : Form ν} (ho : f.own = g.own) (hc : f.children = g.children) : f = g := by
  cases f <;> cases g <;> try (simp only [own, map, reduceCtorEq] at ho)
  case function.function r n ps b _ r' n' ps' b' =>
    simp only [function.injEq] at ho
    obtain ⟨rfl, hr, -, hp, -⟩ := ho
    have hl : r.toList.length = r'.toList.length := by cases r <;> cases r' <;> simp_all
    obtain ⟨h₁, h₂⟩ := List.append_inj hc hl
    obtain ⟨hn, h₃⟩ := List.cons.inj h₂
    obtain ⟨hps, h₄⟩ := List.append_inj h₃ (by simpa using congrArg List.length hp)
    rw [toList_inj.1 h₁, hn, hps, (List.cons.inj h₄).1]
  case declarator.declarator d d' =>
    obtain ⟨t, n, v⟩ := d
    obtain ⟨t', n', v'⟩ := d'
    simp_all [children, Declarator.children, toList_inj]
  case property.property d as _ d' bs =>
    obtain ⟨t, n, v⟩ := d
    obtain ⟨t', n', v'⟩ := d'
    simp only [property.injEq] at ho
    obtain ⟨rfl, -, hk⟩ := ho
    simp only [children, List.cons.injEq] at hc
    obtain ⟨rfl, rfl, hc⟩ := hc
    obtain ⟨h₁, h₂⟩ := List.append_inj hc (by simpa using congrArg List.length hk)
    rw [accessors_ext hk h₁, toList_inj.1 h₂]
  all_goals simp_all [children, toList_inj]

end Form

end SharpTree
