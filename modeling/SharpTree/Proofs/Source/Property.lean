import SharpTree.Proofs.CSharp.Pieces
import SharpTree.Proofs.Source.Tags

/-!
# Properties in a text

The accessors of a property are the members of an object, with any keys. A key
may come up again: its accessor then keeps its place and takes the new body. The
tree that is read lists the accessors in that order, and so do the children of
the property, what is written for it, and its text (`parse_accessors`).
-/

namespace SharpTree

open Json (Value)
open Json.Value (Document)

/-- The contents of a field are what a value holds at its place after the tag. -/
def Json.Value.Holds (v : Value) (i : Nat) (f : Field) (x : f.shape.Carrier Node) : Prop :=
  f.Stands (fun a s y => Reading.ofValue a.2 s = .ok y) x (v.entry 1 i f)

namespace Node

/-! ## A property and its keys -/

section

variable (mods : Option (List Modifier)) (d : Declarator Node) (bs : List (String × Node))

def keyed : Node :=
  mk (.property mods d (bs.map fun b => (.ofKey b.1, b.2)))

theorem children_keyed :
    (keyed mods d bs).children = d.varType :: d.varName :: (bs.map Prod.snd ++ d.value.toList) := by
  simp [keyed, children, form, Form.children]

theorem toValue_keyed : ∃ head, "content" ∉ head.map Prod.fst ∧
    (keyed mods d bs).toValue = .obj (head ++ [("content", .obj (bs.map fun b => (b.1, b.2.toValue)))]) := by
  have hwrite : (keyed mods d bs).toValue = .obj (("type", .str "PropertyDeclaration") ::
      Record.members Kind.property.fields
        (mods, d.map toValue, bs.map fun b => (.ofKey b.1, b.2.toValue), ())) := by
    unfold keyed
    rw [toValue_mk]
    simp [Form.map, Form.write, Form.kind, Form.toRecord, Kind.name, Function.comp_def]
  refine ⟨("type", .str "PropertyDeclaration") ::
    (mods.toList.map (fun ms => ("modifiers", .arr (ms.map fun m => .str m.token))) ++
      [("declarator", .obj (("type", .str Kind.declarator.name) :: (d.map toValue).members))]), ?_, ?_⟩
  · cases mods <;> simp
  · rw [hwrite]
    cases mods <;> simp [Record.members, Shape.write, Function.comp_def]

theorem render_keyed : (keyed mods d bs).render =
    modifierText mods ++ d.varType.render ++ " " ++ d.varName.render ++ " \x7b\n" ++
      "\n".intercalate (bs.map fun b => (Accessor.ofKey b.1).keyword ++ " " ++ b.2.render ++ "\n") ++ "\x7d" ++
      d.value.elim "" (" = " ++ ·.render ++ ";") := by
  unfold keyed
  rw [render_eq_text]
  simp only [Form.map, Form.text, Declarator.map, List.map_map]
  cases d.value <;> rfl

end

/-! ## Reading -/

variable {source : String} {v : Value} {ms : List (String × Value)} {ks : List (String × Node)} {n : Node}

theorem ofValue_bodies (h : Each (fun _ m k => k.1 = m.1 ∧ ofValue m.2 = .ok k.2) ms ks) :
    Reading.ofValue (.obj ms) .accessors = .ok (bindAll (ks.map fun k => (.ofKey k.1, k.2))) := by
  apply (Reading.ofValue_eq_ok .accessors [] _ _).mpr
  refine ⟨ms, _, rfl, ⟨by rw [List.length_map, h.1], ?_⟩, rfl⟩
  intro i m b hm hb
  rw [List.getElem?_map] at hb
  obtain ⟨k, hk, rfl⟩ := Option.map_eq_some_iff.mp hb
  obtain ⟨hkey, hread⟩ := h.2 i m k hm hk
  exact ⟨by rw [hkey], hread⟩

theorem ofValue_eq_property (hv : v.Tells .property) : ofValue v = .ok n ↔ v.Fits 1 Kind.property.fields ∧
    ∃ mods d as, n = mk (.property mods d as) ∧ v.Holds 0 ⟨"modifiers", .modifiers⟩ mods ∧
      v.Holds 1 ⟨"declarator", .declarator⟩ d ∧ v.Holds 2 ⟨"content", .accessors⟩ as := by
  have hholds (i : Nat) (f : Field) (x : f.shape.Carrier Node) :
      f.Stands (fun a s y => s.Means Read ([] ++ [a.1]) a.2 y) x (v.entry 1 i f) ↔ v.Holds i f x := by
    unfold Json.Value.Holds
    cases v.entry 1 i f with
    | none => exact Iff.rfl
    | some a => exact (Reading.ofValue_eq_ok f.shape _ a.2 x).symm
  obtain ⟨f⟩ := n
  rw [ofValue_eq_ok]
  constructor
  · intro h
    obtain ⟨k, r, hf, hk, hfits, hstands⟩ := h
    have hkind := hk.unique hv
    subst hkind
    obtain ⟨mods, d, as, u⟩ := r
    obtain ⟨hmods, hd, has, -⟩ := hstands
    exact ⟨hfits, mods, d, as, congrArg mk hf, (hholds ..).mp hmods, (hholds ..).mp hd, (hholds ..).mp has⟩
  · intro h
    obtain ⟨hfits, mods, d, as, hf, hmods, hd, has⟩ := h
    refine ⟨.property, (mods, d, as, ()), mk.inj hf, hv, hfits, ?_⟩
    exact ⟨(hholds ..).mpr hmods, (hholds ..).mpr hd, (hholds ..).mpr has, trivial⟩

/-- A property is read with one accessor for each key of its object, in the order in which the keys first come up,
and with the last body of each key. The accessors stand in that order wherever the property goes. -/
theorem parse_accessors {j : Nat} (hdoc : v.Document source.toList) (hv : v.Tells .property)
    (hcontent : v.entry 1 2 ⟨"content", .accessors⟩ = some (j, .obj ms))
    (hbodies : Each (fun _ m k => k.1 = m.1 ∧ ofValue m.2 = .ok k.2) ms ks) :
    ∃ bs, Latest ks bs ∧
      (∀ n, parse source = .ok n ↔
        v.nesting < maxNesting ∧ v.Tagged ∧ v.Fits 1 Kind.property.fields ∧ ∃ mods d, n = keyed mods d bs ∧
          v.Holds 0 ⟨"modifiers", .modifiers⟩ mods ∧ v.Holds 1 ⟨"declarator", .declarator⟩ d) ∧
      ∀ mods d,
        (keyed mods d bs).form = .property mods d (bs.map fun b => (.ofKey b.1, b.2)) ∧
        (keyed mods d bs).children = d.varType :: d.varName :: (bs.map Prod.snd ++ d.value.toList) ∧
        (∃ head, "content" ∉ head.map Prod.fst ∧
          (keyed mods d bs).toValue = .obj (head ++ [("content", .obj (bs.map fun b => (b.1, b.2.toValue)))])) ∧
        (keyed mods d bs).render =
          modifierText mods ++ d.varType.render ++ " " ++ d.varName.render ++ " \x7b\n" ++
            "\n".intercalate (bs.map fun b => (Accessor.ofKey b.1).keyword ++ " " ++ b.2.render ++ "\n") ++
            "\x7d" ++ d.value.elim "" (" = " ++ ·.render ++ ";") := by
  obtain ⟨bs, has, hlatest⟩ :=
    (latest_bindAll (ks.map fun k => (.ofKey k.1, k.2))).exists_of_map Accessor.key_ofKey
  have hcontents (as : List (Accessor × Node)) : v.Holds 2 ⟨"content", .accessors⟩ as ↔
      as = bs.map fun b => (.ofKey b.1, b.2) := by
    unfold Json.Value.Holds
    rw [hcontent, ← has]
    change Reading.ofValue (.obj ms) .accessors = .ok as ↔ _
    rw [ofValue_bodies hbodies, Except.ok.injEq]
    exact eq_comm
  refine ⟨bs, hlatest, ?_, ?_⟩
  · intro n
    rw [parse_eq_ok_of_document hdoc, ofValue_eq_property hv]
    simp only [hcontents]
    constructor
    · intro h
      obtain ⟨hnesting, htagged, hfits, mods, d, as, hn, hmods, hd, rfl⟩ := h
      exact ⟨hnesting, htagged, hfits, mods, d, hn, hmods, hd⟩
    · intro h
      obtain ⟨hnesting, htagged, hfits, mods, d, hn, hmods, hd⟩ := h
      exact ⟨hnesting, htagged, hfits, mods, d, _, hn, hmods, hd, rfl⟩
  · intro mods d
    exact ⟨rfl, children_keyed mods d bs, toValue_keyed mods d bs, render_keyed mods d bs⟩

def repeatedSetter : Value :=
  .obj [("type", .str "PropertyDeclaration"),
    ("content", .obj [("set", identifierValue "a"), ("get", identifierValue "b"), ("init", identifierValue "c"),
      ("set", identifierValue "d")]),
    ("declarator", .obj [("varType", identifierValue "int"), ("varName", identifierValue "Count")])]

theorem parse_accessors_repeated : parse repeatedSetter.compact = .ok (keyed none ⟨ident "int", ident "Count", none⟩
    [("set", ident "d"), ("get", ident "b"), ("init", ident "c")]) := by
  have hread (name : String) : ofValue (identifierValue name) = .ok (ident name) := rfl
  have hbodies : Each (fun _ m k => k.1 = m.1 ∧ ofValue m.2 = .ok k.2)
      [("set", identifierValue "a"), ("get", identifierValue "b"), ("init", identifierValue "c"),
        ("set", identifierValue "d")]
      [("set", ident "a"), ("get", ident "b"), ("init", ident "c"), ("set", ident "d")] := by
    simp [each_cons, each_nil, hread]
  obtain ⟨bs, hbs, hparse, -⟩ := parse_accessors (v := repeatedSetter) (Value.document_numberless rfl)
    ⟨_, rfl, Kind.told_name .property⟩ (j := 1) rfl hbodies
  have hlatest : Latest [("set", ident "a"), ("get", ident "b"), ("init", ident "c"), ("set", ident "d")]
      [("set", ident "d"), ("get", ident "b"), ("init", ident "c")] := by
    refine ⟨by decide, ?_⟩
    intro a ha
    simp only [List.mem_cons, List.not_mem_nil, or_false] at ha
    rcases ha with rfl | rfl | rfl
    · exact ⟨[_, _, _], [], rfl, by simp⟩
    · exact ⟨[_], [_, _], rfl, by simp⟩
    · exact ⟨[_, _], [_], rfl, by simp⟩
  rw [hbs.unique hlatest] at hparse
  apply (hparse _).mpr
  have hfits : repeatedSetter.Fits 1 Kind.property.fields := by
    simp [repeatedSetter, Value.Fits, Json.Value.named]
  exact ⟨by decide, ⟨_, rfl⟩, hfits, none, _, rfl, rfl, rfl⟩

end Node

end SharpTree
