import SharpTree.Proofs.Node.RoundTrip

/-!
# Explicit values

An explicit value spells out a tree as it would be written, but for the order of
members: every node has its tag and the fields of its kind, and nothing else. It
is read as a tree, and writing that tree gives the value back
(`parse_explicit`).
-/

namespace SharpTree

open Json (Value Pointer Number)

/-- A value that has all that is written for a shape, with no member twice and none too many. Only optional nodes
and modifiers may be left out. -/
inductive Explicit : Shape → Value → Prop where
  | node {k : Kind} {ms : List (String × Value)} (known : k ≠ .unsupported) (nodup : (ms.map Prod.fst).Nodup)
      (tag : ("type", .str k.name) ∈ ms) (only : ∀ m ∈ ms, m.1 = "type" ∨ ∃ f ∈ k.fields, f.name = m.1)
      (present : ∀ f ∈ k.fields, f.shape ≠ .optionalNode → f.shape ≠ .modifiers → ∃ v, (f.name, v) ∈ ms)
      (fields : ∀ f ∈ k.fields, ∀ v, (f.name, v) ∈ ms → Explicit f.shape v) : Explicit .node (.obj ms)
  | optionalNode {v : Value} (h : Explicit .node v) : Explicit .optionalNode v
  | nodes {vs : List Value} (h : ∀ v ∈ vs, Explicit .node v) : Explicit .nodes (.arr vs)
  | optionalNodes {vs : List Value} (h : ∀ v ∈ vs, Explicit .node v) : Explicit .optionalNodes (.arr vs)
  | declarator {ms : List (String × Value)} (tag : ("type", .str Kind.declarator.name) ∈ ms)
      (h : Explicit .node (.obj ms)) : Explicit .declarator (.obj ms)
  | accessors {ms : List (String × Value)} (nodup : (ms.map Prod.fst).Nodup) (h : ∀ m ∈ ms, Explicit .node m.2) :
      Explicit .accessors (.obj ms)
  | modifiers (tokens : List String) : Explicit .modifiers (.arr (tokens.map .str))
  | blockKind (b : BlockKind) : Explicit .blockKind (.str b.name)
  | text (s : String) : Explicit .text (.str s)
  | literal {v : Value} (distinct : v.Distinct) (integers : ∀ x ∈ v.numbers, ∃ z, x = .int z ∧ x.Fits) :
      Explicit .literal v

/-- Two values of a shape that differ in the order of members only, but not in the order of accessors. -/
inductive Alike : Shape → Value → Value → Prop where
  | refl (s : Shape) (v : Value) : Alike s v v
  | node {k : Kind} {ms ns : List (String × Value)} (nodup : (ms.map Prod.fst).Nodup)
      (names : (ms.map Prod.fst).Perm (ns.map Prod.fst))
      (only : ∀ m ∈ ms, m.1 = "type" ∨ ∃ f ∈ k.fields, f.name = m.1)
      (tag : ("type", .str k.name) ∈ ms) (tag' : ("type", .str k.name) ∈ ns)
      (fields : ∀ f ∈ k.fields, ∀ v w, (f.name, v) ∈ ms → (f.name, w) ∈ ns → Alike f.shape v w) :
      Alike .node (.obj ms) (.obj ns)
  | optionalNode {v w : Value} (h : Alike .node v w) : Alike .optionalNode v w
  | nodes {vs ws : List Value} (length : vs.length = ws.length)
      (items : ∀ (i : Nat) v w, vs[i]? = some v → ws[i]? = some w → Alike .node v w) :
        Alike .nodes (.arr vs) (.arr ws)
  | optionalNodes {vs ws : List Value} (h : Alike .nodes (.arr vs) (.arr ws)) :
      Alike .optionalNodes (.arr vs) (.arr ws)
  | declarator {v w : Value} (h : Alike .node v w) : Alike .declarator v w
  | accessors {ms ns : List (String × Value)} (nodup : (ms.map Prod.fst).Nodup)
      (keys : ms.map Prod.fst = ns.map Prod.fst)
      (values : ∀ (i : Nat) m n, ms[i]? = some m → ns[i]? = some n → Alike .node m.2 n.2) :
      Alike .accessors (.obj ms) (.obj ns)
  | literal {v w : Value} (h : v.Reordered w) : Alike .literal v w

theorem Alike.reordered {s : Shape} {v w : Value} (h : Alike s v w) : v.Reordered w := by
  induction h with
  | refl s v => exact .refl v
  | node nodup names only tag tag' fields ih =>
    refine .obj names fun name v w hv hw => ?_
    obtain rfl | ⟨f, hf, rfl⟩ := only _ hv
    · cases List.inj_on_of_nodup_map nodup hv tag rfl
      cases List.inj_on_of_nodup_map (names.nodup_iff.mp nodup) hw tag' rfl
      exact .refl _
    · exact ih f hf v w hv hw
  | optionalNode h ih => exact ih
  | nodes length items ih => exact .arr length ih
  | optionalNodes h ih => exact ih
  | declarator h ih => exact ih
  | @accessors ms ns nodup keys values ih =>
    refine .obj (keys ▸ .refl _) fun name v w hv hw => ?_
    obtain ⟨i, hi⟩ := List.getElem?_of_mem hv
    obtain ⟨u, hu⟩ := exists_of_names keys.symm hi
    cases List.inj_on_of_nodup_map (keys ▸ nodup) hw (List.mem_of_getElem? hu) rfl
    exact ih i _ _ hi hu
  | literal h => exact h

/-! ## Fields of an object -/

section

variable {fs : List Field} {ms : List (String × Value)} {name : String} {v : Value} {r : Record Node fs}

/-- The contents are read from the value, and what is written for them is like the value. -/
def Shape.Gives (s : Shape) (v : Value) (x : s.Carrier Node) : Prop :=
  (∀ π, s.Means Node.Read π v x) ∧ ∃ u, s.write (s.map Node.toValue x) = some u ∧ Alike s v u

/-- A field is read from its member, or else is left out both by the members and in what is written. -/
def Field.Gives (ms : List (String × Value)) (f : Field) (x : f.shape.Carrier Node) : Prop :=
  (f.name ∉ ms.map Prod.fst ∧ f.shape.absent? Node = some x ∧ f.shape.write (f.shape.map Node.toValue x) = none) ∨
    ∃ v, (f.name, v) ∈ ms ∧ f.shape.Gives v x

theorem Field.Gives.found {f : Field} {x : f.shape.Carrier Node} (h : f.Gives ms x) :
    f.Found (Shape.Means Node.Read) ms x := by
  obtain ⟨hno, habsent, -⟩ | ⟨v, hv, hread, -⟩ := h
  · exact .inl ⟨hno, habsent⟩
  · exact .inr ⟨v, hv, hread⟩

theorem Record.gives_of_mem_members (h : ∀ e ∈ Record.entries fs r, e.1.Gives ms e.2) {m : String × Value}
    (hm : m ∈ Record.members fs (Record.map Node.toValue fs r)) :
    ∃ f ∈ fs, f.name = m.1 ∧ ∃ v, (f.name, v) ∈ ms ∧ Alike f.shape v m.2 := by
  obtain ⟨e', he', hname, hwrite⟩ := Record.exists_of_mem_members hm
  rw [Record.entries_map] at he'
  obtain ⟨e, he, rfl⟩ := List.mem_map.mp he'
  refine ⟨e.1, Record.mem_of_entries he, hname.symm, ?_⟩
  obtain ⟨-, -, hnone⟩ | ⟨v, hv, -, u, hu, halike⟩ := h e he
  · rw [hnone] at hwrite
    cases hwrite
  · rw [hu] at hwrite
    cases hwrite
    exact ⟨v, hv, halike⟩

end

theorem alike_write {k : Kind} {ms : List (String × Value)} {r : Record Node k.fields}
    (hn : (ms.map Prod.fst).Nodup) (tag : ("type", .str k.name) ∈ ms)
    (only : ∀ m ∈ ms, m.1 = "type" ∨ ∃ f ∈ k.fields, f.name = m.1)
    (h : ∀ e ∈ Record.entries k.fields r, e.1.Gives ms e.2) :
    Alike .node (.obj ms) (Node.toValue (.mk (.ofRecord k r))) := by
  rw [Node.toValue_mk, Form.map_ofRecord, Form.write_ofRecord]
  have hn' : (("type", Value.str k.name) :: Record.members k.fields (Record.map Node.toValue k.fields r)).map
      Prod.fst |>.Nodup :=
    List.nodup_cons.mpr ⟨fun ht => k.type_not_mem_fields (names_members ht), Record.nodup_members k.fields_nodup _⟩
  refine .node hn ?_ only tag List.mem_cons_self fun f hf v w hv hw => ?_
  · rw [List.perm_ext_iff_of_nodup hn hn']
    intro name
    constructor
    · intro hname
      obtain ⟨⟨_, v⟩, hv, rfl⟩ := List.mem_map.mp hname
      obtain rfl | ⟨f, hf, rfl⟩ := only _ hv
      · exact List.mem_cons_self
      · obtain ⟨x, hx⟩ := Record.exists_entry r hf
        obtain ⟨hno, -⟩ | ⟨_, -, -, u, hu, -⟩ := h _ hx
        · exact absurd hname hno
        · refine List.mem_cons_of_mem _ (List.mem_map.mpr ⟨(f.name, u), ?_, rfl⟩)
          refine Record.mem_members (e := ⟨f, f.shape.map Node.toValue x⟩) ?_ hu
          rw [Record.entries_map]
          exact List.mem_map.mpr ⟨_, hx, rfl⟩
    · intro hname
      obtain ⟨m, hm, rfl⟩ := List.mem_map.mp hname
      obtain rfl | hm := List.mem_cons.mp hm
      · exact List.mem_map.mpr ⟨_, tag, rfl⟩
      · obtain ⟨f, -, hname, v, hv, -⟩ := Record.gives_of_mem_members h hm
        exact List.mem_map.mpr ⟨_, hv, hname⟩
  · obtain hm | hm := List.mem_cons.mp hw
    · have hname : f.name = "type" := congrArg Prod.fst hm
      exact absurd (hname ▸ List.mem_map_of_mem hf) k.type_not_mem_fields
    · obtain ⟨g, hg, hname, v', hv', halike⟩ := Record.gives_of_mem_members h hm
      cases List.inj_on_of_nodup_map k.fields_nodup hg hf hname
      cases List.inj_on_of_nodup_map hn hv hv' rfl
      exact halike

/-! ## Every shape -/

def Regained (v : Value) (n : Node) : Prop :=
  Node.ofValue v = .ok n ∧ Alike .node v n.toValue

theorem Shape.gives_node {v : Value} {n : Node} : Shape.node.Gives v n ↔ Regained v n := by
  constructor
  · rintro ⟨hread, u, hu, halike⟩
    cases hu
    exact ⟨hread [], halike⟩
  · exact fun h => ⟨fun _ => h.1, n.toValue, rfl, h.2⟩

theorem gives_nodes {vs : List Value} (h : ∀ v ∈ vs, ∃ n, Shape.node.Gives v n) :
    ∃ ns : List Node, (∀ π : Pointer, Each (fun i => Node.Read (π ++ [i])) vs ns) ∧
      Alike .nodes (.arr vs) (.arr (ns.map Node.toValue)) := by
  obtain ⟨ns, hns⟩ := exists_each h
  refine ⟨ns, fun π => hns.mono fun i v n hn => (Shape.gives_node.mp hn).1, .nodes (by simp [hns.1]) ?_⟩
  intro i v w hv hw
  rw [List.getElem?_map] at hw
  obtain ⟨n, hn, rfl⟩ := Option.map_eq_some_iff.mp hw
  exact (Shape.gives_node.mp (hns.2 i v n hv hn)).2

theorem gives_declarator {ms : List (String × Value)} (hn : (ms.map Prod.fst).Nodup)
    (tag : ("type", .str Kind.declarator.name) ∈ ms) {n : Node} (h : Regained (.obj ms) n) :
    ∃ d, Shape.declarator.Gives (.obj ms) d := by
  obtain ⟨hread, halike⟩ := h
  obtain ⟨f⟩ := n
  obtain ⟨k, r, rfl, ⟨t, ht, htold⟩, hfits, hr⟩ := Node.ofValue_eq_ok.mp hread
  rw [named_of_mem hn tag] at ht
  cases ht
  obtain rfl : k = .declarator := by
    obtain ⟨_, hname, rfl⟩ | ⟨_, hnum, -⟩ := htold
    · cases hname
      decide
    · cases hnum
  refine ⟨.ofRecord r, fun π => ⟨hfits, ?_⟩, _, ?_, .declarator halike⟩
  · -- the declarator reads its fields as the node does
    refine (Record.stands_congr fun i f hf x => ?_).mp hr
    rw [show Value.entry 0 (.obj ms) i f = Value.entry 1 (.obj ms) i f from rfl]
    cases Value.entry 1 (.obj ms) i f with
    | none => exact Iff.rfl
    | some a =>
      exact (Reading.ofValue_eq_ok f.shape _ a.2 x).symm.trans
        (Reading.ofValue_plain (Declarator.shape_ne f hf) _ a.2 x)
  · rw [Shape.write, Declarator.members_eq, Node.toValue_mk]
    rfl

theorem gives_accessors {ms : List (String × Value)} (hn : (ms.map Prod.fst).Nodup)
    (h : ∀ m ∈ ms, ∃ n, Shape.node.Gives m.2 n) : ∃ as, Shape.accessors.Gives (.obj ms) as := by
  obtain ⟨bs, hbs⟩ : ∃ bs : List (Accessor × Node),
      Each (fun _ m b => b.1 = .ofKey m.1 ∧ Regained m.2 b.2) ms bs := by
    refine exists_each fun m hm => ?_
    obtain ⟨n, hn⟩ := h m hm
    exact ⟨(.ofKey m.1, n), rfl, Shape.gives_node.mp hn⟩
  have hkeys : ms.map Prod.fst = bs.map fun b => b.1.key := by
    refine each_eq_map.mp ((each_map_left _).mpr (hbs.mono fun _ m b hb => ?_))
    rw [hb.1, Accessor.key_ofKey]
  have hnodup : (bs.map Prod.fst).Nodup := by
    rw [hkeys] at hn
    refine List.Pairwise.of_map (S := (· ≠ ·)) Accessor.key (fun _ _ hne heq => hne (congrArg _ heq)) ?_
    rwa [List.map_map]
  refine ⟨bs, fun π => ⟨ms, bs, rfl, hbs.mono fun _ _ _ hb => ⟨hb.1, hb.2.1⟩, (bindAll_of_nodup hnodup).symm⟩, _,
    rfl, .accessors hn ?_ fun i m m' hm hm' => ?_⟩
  · rw [hkeys, Shape.map, List.map_map, List.map_map]
    rfl
  · rw [Shape.map, List.map_map, List.getElem?_map] at hm'
    obtain ⟨b, hb, rfl⟩ := Option.map_eq_some_iff.mp hm'
    exact (hbs.2 i m b hm hb).2.2

theorem Explicit.nodup {ms : List (String × Value)} (h : Explicit .node (.obj ms)) : (ms.map Prod.fst).Nodup := by
  cases h
  assumption

theorem Explicit.gives {s : Shape} {v : Value} (h : Explicit s v) : ∃ x : s.Carrier Node, s.Gives v x := by
  induction h with
  | @node k ms known nodup tag only present fields ih =>
    have hfields : ∀ f ∈ k.fields, ∃ x, f.Gives ms x := by
      intro f hf
      by_cases hv : ∃ v, (f.name, v) ∈ ms
      · obtain ⟨v, hv⟩ := hv
        obtain ⟨x, hx⟩ := ih f hf v hv
        exact ⟨x, .inr ⟨v, hv, hx⟩⟩
      · have hno : f.name ∉ ms.map Prod.fst := by
          intro hname
          obtain ⟨⟨_, v⟩, hm, rfl⟩ := List.mem_map.mp hname
          exact hv ⟨v, hm⟩
        have hshape : f.shape = .optionalNode ∨ f.shape = .modifiers :=
          Classical.or_iff_not_imp_left.mpr fun ho => Classical.not_not.mp fun hm => hv (present f hf ho hm)
        obtain ⟨name, shape⟩ := f
        obtain rfl | rfl := hshape
        · exact ⟨none, .inl ⟨hno, rfl, rfl⟩⟩
        · exact ⟨none, .inl ⟨hno, rfl, rfl⟩⟩
    obtain ⟨r, hr⟩ := Record.exists_entries hfields
    refine ⟨.mk (.ofRecord k r), Shape.gives_node.mpr ⟨?_, alike_write nodup tag only hr⟩⟩
    refine Node.ofValue_eq_ok.mpr ⟨k, r, rfl, ⟨_, named_of_mem nodup tag, k.told_name⟩, ?_⟩
    exact Record.of_found nodup (fun e he => (hr e he).found) [] 1
  | optionalNode h ih =>
    obtain ⟨n, hread, u, hu, halike⟩ := ih
    exact ⟨some n, fun π => .inr ⟨n, hread π, rfl⟩, u, hu, .optionalNode halike⟩
  | nodes h ih =>
    obtain ⟨ns, hread, halike⟩ := gives_nodes ih
    exact ⟨ns, fun π => ⟨_, rfl, hread π⟩, _, rfl, halike⟩
  | optionalNodes h ih =>
    obtain ⟨ns, hread, halike⟩ := gives_nodes ih
    exact ⟨ns, fun π => ⟨_, rfl, hread π⟩, _, rfl, .optionalNodes halike⟩
  | declarator tag h ih =>
    obtain ⟨n, hn⟩ := ih
    exact gives_declarator h.nodup tag (Shape.gives_node.mp hn)
  | accessors nodup h ih => exact gives_accessors nodup ih
  | modifiers tokens =>
    refine ⟨some (tokens.map .ofToken), fun _ => .inr ⟨tokens, rfl, rfl⟩, .arr (tokens.map .str), ?_, .refl _ _⟩
    simp [Shape.write, Shape.map]
  | blockKind b => exact ⟨b, fun _ => .inl ⟨_, rfl, (BlockKind.ofName_name b).symm⟩, _, rfl, .refl _ _⟩
  | text s => exact ⟨s, fun _ => rfl, _, rfl, .refl _ _⟩
  | literal distinct integers => exact ⟨_, fun _ => rfl, _, rfl, .literal (Json.Value.reordered_canonical distinct)⟩

theorem Explicit.integers {s : Shape} {v : Value} (h : Explicit s v) :
    ∀ x ∈ v.numbers, ∃ z, x = .int z ∧ x.Fits := by
  induction h with
  | node known nodup tag only present fields ih =>
    intro x hx
    obtain ⟨⟨name, v⟩, hm, hx⟩ := Value.mem_numbersMembers.mp hx
    obtain rfl | ⟨f, hf, rfl⟩ := only _ hm
    · cases List.inj_on_of_nodup_map nodup hm tag rfl
      cases hx
    · exact ih f hf v hm x hx
  | optionalNode h ih => exact ih
  | nodes h ih | optionalNodes h ih =>
    intro x hx
    obtain ⟨v, hv, hx⟩ := Value.mem_numbersItems.mp hx
    exact ih v hv x hx
  | declarator tag h ih => exact ih
  | accessors nodup h ih =>
    intro x hx
    obtain ⟨m, hm, hx⟩ := Value.mem_numbersMembers.mp hx
    exact ih m hm x hx
  | modifiers tokens =>
    intro x hx
    obtain ⟨v, hv, hx⟩ := Value.mem_numbersItems.mp hx
    obtain ⟨token, -, rfl⟩ := List.mem_map.mp hv
    cases hx
  | blockKind b | text s =>
    intro x hx
    cases hx
  | literal distinct integers => exact integers

theorem Explicit.tagged {v : Value} (h : Explicit .node v) : v.Tagged := by
  cases h with
  | node known nodup tag => exact ⟨_, named_of_mem nodup tag⟩

/-- An explicit value that does not nest too deep is read from each of its texts, and the tree is written as the
same value, but for the order of members; accessors keep theirs. -/
theorem Node.parse_explicit {v : Value} (h : Explicit .node v) (hv : v.nesting < maxNesting) :
    ∃ n, (∀ source : String, v.Document source.toList → parse source = .ok n) ∧
      v.Document v.compact.toList ∧ v.Document v.pretty.toList ∧
      v.Reordered n.toValue ∧ Alike .node v n.toValue ∧
      n.toValue.Document n.toValue.compact.toList ∧ n.toValue.Document n.toValue.pretty.toList := by
  obtain ⟨n, hn⟩ := h.gives
  obtain ⟨hread, halike⟩ := Shape.gives_node.mp hn
  have hspells : ∀ x ∈ v.numbers, Json.SpellsNumber x x.text := by
    intro x hx
    obtain ⟨z, rfl, hz⟩ := h.integers x hx
    exact Json.spellsNumber_text hz
  have hspells' : ∀ x ∈ n.toValue.numbers, Json.SpellsNumber x x.text :=
    numbers_toValue fun p m hm x hx => hspells x (numbers_of_ofValue hread p m hm x hx)
  exact ⟨n, fun source hs => parse_eq_ok_iff.mpr ⟨v, hs, hv, h.tagged, hread⟩, Value.document_compact hspells,
    Value.document_pretty hspells, halike.reordered, halike, Value.document_compact hspells',
    Value.document_pretty hspells'⟩

def sampleProperty : Value :=
  .obj [("content", .obj [("set", .obj [("value", .str "x"), ("type", .str "Identifier")]),
      ("get", .obj [("type", .str "NumberLiteral"),
        ("value", .obj [("b", .num (.int 1)), ("a", .num (.int (-1)))])])]),
    ("type", .str "PropertyDeclaration"), ("modifiers", .arr [.str "public"]),
    ("declarator", .obj [("varName", .obj [("value", .str "y"), ("type", .str "Identifier")]),
      ("varType", .obj [("value", .str "int"), ("type", .str "Identifier")]), ("type", .str "VariableDeclarator")])]

theorem explicit_identifier (name : String) :
    Explicit .node (.obj [("value", .str name), ("type", .str "Identifier")]) := by
  refine .node (k := .identifier) (by decide) (by simp) (by simp [Kind.name]) (by simp) (by simp) ?_
  simpa using Explicit.text name

theorem explicit_sampleProperty : Explicit .node sampleProperty := by
  have hliteral : Explicit .literal (.obj [("b", .num (.int 1)), ("a", .num (.int (-1)))]) := by
    refine .literal ?_ (by simp [Value.numbers, Value.numbersMembers, Number.Fits])
    intro π ms h
    cases π with
    | nil =>
      cases h
      decide
    | cons i π => rcases i with _ | _ | i <;> cases π <;> cases h
  have hnumber : Explicit .node
      (.obj [("type", .str "NumberLiteral"), ("value", .obj [("b", .num (.int 1)), ("a", .num (.int (-1)))])]) := by
    refine .node (k := .numberLit) (by decide) (by simp) (by simp [Kind.name]) (by simp) (by simp) ?_
    simpa using hliteral
  have hdeclarator : Explicit .node (.obj [("varName", .obj [("value", .str "y"), ("type", .str "Identifier")]),
      ("varType", .obj [("value", .str "int"), ("type", .str "Identifier")]),
        ("type", .str "VariableDeclarator")]) := by
    refine .node (k := .declarator) (by decide) (by simp) (by simp [Kind.name]) (by simp) (by simp) ?_
    simp [explicit_identifier]
  have hcontent : Explicit .accessors (.obj [("set", .obj [("value", .str "x"), ("type", .str "Identifier")]),
      ("get", .obj [("type", .str "NumberLiteral"),
        ("value", .obj [("b", .num (.int 1)), ("a", .num (.int (-1)))])])]) :=
    .accessors (by simp) (by simp [hnumber, explicit_identifier])
  refine .node (k := .property) (by decide) (by simp) (by simp [Kind.name]) (by simp) (by simp) ?_
  simpa using ⟨.modifiers ["public"], .declarator (by simp [Kind.name]) hdeclarator, hcontent⟩

theorem Node.parse_explicit_property :
    Explicit .node sampleProperty ∧ sampleProperty.nesting < maxNesting ∧
      ∃ n, (∀ source : String, sampleProperty.Document source.toList → parse source = .ok n) ∧
        sampleProperty.Document sampleProperty.compact.toList ∧
          sampleProperty.Document sampleProperty.pretty.toList ∧
        sampleProperty.Reordered n.toValue ∧ Alike .node sampleProperty n.toValue ∧
        n.toValue.Document n.toValue.compact.toList ∧ n.toValue.Document n.toValue.pretty.toList :=
  ⟨explicit_sampleProperty, by decide, parse_explicit explicit_sampleProperty (by decide)⟩

end SharpTree
