import SharpTree.Proofs.Source.Tags

/-!
# Malformed nodes

A value is read by asking some of its parts to be nodes, declarators and the like.
`Asked` follows these questions through a value, wherever it may be wrong: below
any of several tags or fields of one name, and past any mismatch elsewhere. A
value is not read unless each part that is asked can be read (`Asked.readable`).
So an object that lacks its tag or a field, or has one twice, is never passed
over (`parse_refuses_malformed`).

What is put for a node of a tree is asked as well, so a text is refused if it is
no node (`Spot.parse_refuses`).
-/

namespace SharpTree

open Json (Value Pointer)
open Json.Value (named Document)

def optionalFields : List String :=
  ["modifiers", "returnType", "argList", "defaultValue", "content", "next", "args", "blockType"]

def Field.Required (f : Field) : Prop :=
  f.name ∉ optionalFields

theorem Kind.required_iff (k : Kind) : ∀ f ∈ k.fields, f.Required ↔ f.shape.absent? Node = none := by
  unfold Field.Required optionalFields
  cases k <;> simp [Shape.absent?]

theorem mem_named {α : Type} {name : String} {ms : List (String × α)} {a : α} :
    a ∈ named name ms ↔ (name, a) ∈ ms := by
  simp [named]

theorem length_named {α : Type} (name : String) (ms : List (String × α)) :
    (named name ms).length = (ms.map Prod.fst).count name := by
  induction ms with
  | nil => rfl
  | cons m ms ih =>
    rw [named_cons, List.length_append, ih, List.map_cons, List.count_cons]
    by_cases h : m.1 = name <;> simp [named, h, Nat.add_comm]

theorem exists_head?_indexed {α : Type} {name : String} {ms : List (String × α)} {a : α} (h : (name, a) ∈ ms)
    (hone : (named name ms).length ≤ 1) : ∃ j, (indexed name ms).head? = some (j, a) := by
  have hmem := mem_named.mpr h
  rw [← map_snd_indexed] at hone hmem
  cases hms : indexed name ms with
  | nil => simp [hms] at hmem
  | cons m rest =>
    have hrest : rest = [] := by simpa [hms] using hone
    have ha : a = m.2 := by simpa [hms, hrest] using hmem
    exact ⟨m.1, by rw [List.head?_cons, ha]⟩

theorem Each.exists_left {α β : Type} {R : Nat → α → β → Prop} {as : List α} {bs : List β} (e : Each R as bs)
    {a : α} (ha : a ∈ as) : ∃ i b, R i a b := by
  obtain ⟨i, hi, rfl⟩ := List.mem_iff_getElem.mp ha
  have hi' : i < bs.length := e.1 ▸ hi
  exact ⟨i, bs[i], e.2 i _ _ (List.getElem?_eq_getElem hi) (List.getElem?_eq_getElem hi')⟩

namespace Json.Value

/-! ## Parts that are asked -/

/-- Some tag of a value tells the kind. There may be others. -/
def HasTag : Value → Kind → Prop
  | .obj ms, k => ∃ t, ("type", t) ∈ ms ∧ k.Told t
  | .arr vs, k => ∃ t, vs.head? = some t ∧ k.Told t
  | _, _ => False

/-- The value has a field: some member of its name, or the item at its place after the tag. -/
inductive HasField (offset : Nat) (fs : List Field) : Value → Field → Value → Prop where
  | member {ms : List (String × Value)} {f : Field} {w : Value} (field : f ∈ fs) (value : (f.name, w) ∈ ms) :
    HasField offset fs (.obj ms) f w
  | item {vs : List Value} {i : Nat} {f : Field} {w : Value} (field : fs[i]? = some f)
    (value : vs[i + offset]? = some w) : HasField offset fs (.arr vs) f w

/-- If the first value is asked to be of the first shape, then the second one, inside it, is asked to be of the
second shape. -/
inductive Asked : Shape → Value → Shape → Value → Prop where
  | here (s : Shape) (v : Value) : Asked s v s v
  | field {v w u : Value} {k : Kind} {f : Field} {s : Shape} (tag : v.HasTag k) (field : v.HasField 1 k.fields f w)
    (below : Asked f.shape w s u) : Asked .node v s u
  | binding {v w u : Value} {f : Field} {s : Shape} (field : v.HasField 0 Declarator.fields f w)
    (below : Asked f.shape w s u) : Asked .declarator v s u
  | present {v u : Value} {s : Shape} (present : v ≠ .null) (below : Asked .node v s u) : Asked .optionalNode v s u
  | item {vs : List Value} {v u : Value} {s : Shape} (item : v ∈ vs) (below : Asked .node v s u) :
    Asked .nodes (.arr vs) s u
  | argument {vs : List Value} {v u : Value} {s : Shape} (item : v ∈ vs) (below : Asked .node v s u) :
    Asked .optionalNodes (.arr vs) s u
  | accessor {ms : List (String × Value)} {m : String × Value} {u : Value} {s : Shape} (member : m ∈ ms)
    (below : Asked .node m.2 s u) : Asked .accessors (.obj ms) s u

def Unfit (fs : List Field) (ms : List (String × Value)) : Prop :=
  ∃ f ∈ fs, (f.Required ∧ f.name ∉ ms.map Prod.fst) ∨ 1 < (ms.map Prod.fst).count f.name

/-- An object that is no node, or no declarator, whatever its fields hold. -/
def Malformed : Shape → Value → Prop
  | .node, .obj ms =>
    "type" ∉ ms.map Prod.fst ∨ 1 < (ms.map Prod.fst).count "type" ∨
      ∃ k, (Value.obj ms).HasTag k ∧ Unfit k.fields ms
  | .declarator, .obj ms => Unfit Declarator.fields ms
  | _, _ => False

/-! ## What can be read -/

theorem HasField.mem {offset : Nat} {fs : List Field} {v w : Value} {f : Field} (h : v.HasField offset fs f w) :
    f ∈ fs := by
  cases h with
  | member hf _ => exact hf
  | item hf _ => exact List.mem_of_getElem? hf

theorem HasTag.eq_of_tells {v : Value} {j k : Kind} (hj : v.HasTag j) (hk : v.Tells k) : j = k := by
  cases v with
  | obj ms =>
    obtain ⟨t, ht, hj⟩ := hj
    obtain ⟨u, hu, hk⟩ := hk
    have htu := mem_named.mpr ht
    rw [hu, List.mem_singleton] at htu
    subst htu
    exact hj.unique hk
  | arr vs =>
    obtain ⟨t, ht, hj⟩ := hj
    obtain ⟨u, hu, hk⟩ := hk
    cases ht.symm.trans hu
    exact hj.unique hk
  | _ => cases hj

end Json.Value

section

variable {ν : Type} {leaf : (s : Shape) → Pointer → Value → s.Carrier ν → Prop} {π : Pointer} {offset : Nat}
  {v w : Value} {fs : List Field} {r : Record ν fs}

theorem Record.Of.stands_at (hr : Record.Of leaf π offset v fs r) {i : Nat} {f : Field} (hf : fs[i]? = some f) :
    ∃ x, f.Stands (fun a s x => leaf s (π ++ [a.1]) a.2 x) x (v.entry offset i f) := by
  rw [← Record.map_fst_entries fs r, List.getElem?_map] at hf
  obtain ⟨e, he, rfl⟩ := Option.map_eq_some_iff.mp hf
  exact ⟨e.2, Record.stands_iff.mp hr.2 i e he⟩

theorem Record.Of.reads_entry (hr : Record.Of leaf π offset v fs r) {i j : Nat} {f : Field} (hf : fs[i]? = some f)
    (h : v.entry offset i f = some (j, w)) : ∃ x, leaf f.shape (π ++ [j]) w x := by
  obtain ⟨x, hx⟩ := hr.stands_at hf
  rw [h] at hx
  exact ⟨x, hx⟩

theorem Record.Of.reads_field (hr : Record.Of leaf π offset v fs r) {f : Field} (h : v.HasField offset fs f w) :
    ∃ ρ x, leaf f.shape ρ w x := by
  cases h with
  | @member ms _ _ hf hw =>
    obtain ⟨i, hi⟩ := List.getElem?_of_mem hf
    obtain ⟨j, hj⟩ := exists_head?_indexed hw (hr.1 f hf)
    obtain ⟨x, hx⟩ := hr.reads_entry hi hj
    exact ⟨_, x, hx⟩
  | @item vs i _ _ hf hw =>
    have hentry : (Value.arr vs).entry offset i f = some (i + offset, w) := by
      rw [Value.entry, hw, Option.map_some]
    obtain ⟨x, hx⟩ := hr.reads_entry hf hentry
    exact ⟨_, x, hx⟩

theorem Record.Of.not_unfit {ms : List (String × Value)} (hr : Record.Of leaf π offset (.obj ms) fs r)
    (hrequired : ∀ f ∈ fs, f.Required → f.shape.absent? ν = none) : ¬ Value.Unfit fs ms := by
  intro h
  obtain ⟨f, hf, h⟩ := h
  rcases h with ⟨hneeded, hmissing⟩ | hrepeated
  · obtain ⟨i, hi⟩ := List.getElem?_of_mem hf
    obtain ⟨x, hx⟩ := hr.stands_at hi
    rw [Value.entry, indexed_eq_nil (named_of_not_mem hmissing)] at hx
    cases hx.symm.trans (hrequired f hf hneeded)
  · have hlength : (named f.name ms).length ≤ 1 := hr.1 f hf
    rw [length_named] at hlength
    omega

end

namespace Json.Value

theorem Asked.readable {s s' : Shape} {v u : Value} (h : Asked s v s' u) (hv : ∃ x, Reading.ofValue v s = .ok x) :
    ∃ y, Reading.ofValue u s' = .ok y := by
  induction h with
  | here s v => exact hv
  | @field v w u k f s htag hfield below ih =>
    obtain ⟨n, hn⟩ := hv
    obtain ⟨k', r, -, htells, hr⟩ := Node.ofValue_eq_ok.mp hn
    cases htag.eq_of_tells htells
    obtain ⟨ρ, x, hx⟩ := hr.reads_field hfield
    exact ih ⟨x, (Reading.ofValue_eq_ok f.shape ρ w x).mpr hx⟩
  | @binding v w u f s hfield below ih =>
    obtain ⟨d, hd⟩ := hv
    have hr := (Reading.ofValue_eq_ok .declarator [] v d).mp hd
    obtain ⟨ρ, x, hx⟩ := Record.Of.reads_field hr hfield
    exact ih ⟨x, (Reading.ofValue_plain (Declarator.shape_ne f hfield.mem) ρ w x).mpr hx⟩
  | present hnull below ih =>
    obtain ⟨o, ho⟩ := hv
    rcases (Reading.ofValue_optionalNode (π := [])).mp ho with ⟨rfl, -⟩ | ⟨x, hx, -⟩
    · exact absurd rfl hnull
    · exact ih ⟨x, hx⟩
  | item hitem below ih =>
    obtain ⟨xs, hxs⟩ := hv
    obtain ⟨vs, hvs, heach⟩ := (Reading.ofValue_nodes (π := [])).mp hxs
    cases hvs
    obtain ⟨i, x, hx⟩ := heach.exists_left hitem
    exact ih ⟨x, hx⟩
  | argument hitem below ih =>
    obtain ⟨xs, hxs⟩ := hv
    obtain ⟨vs, hvs, heach⟩ := (Reading.ofValue_optionalNodes (π := [])).mp hxs
    cases hvs
    obtain ⟨i, x, hx⟩ := heach.exists_left hitem
    exact ih ⟨x, hx⟩
  | accessor hmember below ih =>
    obtain ⟨as, has⟩ := hv
    obtain ⟨ms, bs, hms, heach, -⟩ := (Reading.ofValue_accessors (π := [])).mp has
    cases hms
    obtain ⟨i, b, -, hb⟩ := heach.exists_left hmember
    exact ih ⟨b.2, hb⟩

theorem Malformed.not_readable {s : Shape} {u : Value} (h : u.Malformed s) :
    ¬ ∃ x, Reading.ofValue u s = .ok x := by
  intro hu
  obtain ⟨x, hx⟩ := hu
  cases s with
  | node =>
    cases u with
    | obj ms =>
      obtain ⟨k, r, -, htells, hr⟩ := Node.ofValue_eq_ok.mp hx
      have hcount : (ms.map Prod.fst).count "type" = 1 := by
        obtain ⟨t, ht, -⟩ := htells
        rw [← length_named, ht, List.length_singleton]
      rcases h with hmissing | hrepeated | ⟨j, htag, hunfit⟩
      · rw [List.count_eq_zero.mpr hmissing] at hcount
        cases hcount
      · omega
      · cases htag.eq_of_tells htells
        exact hr.not_unfit (fun f hf => (k.required_iff f hf).mp) hunfit
    | _ => cases h
  | declarator =>
    cases u with
    | obj ms =>
      have hr := (Reading.ofValue_declarator (π := [])).mp hx
      exact hr.not_unfit (fun f hf => (Kind.declarator.required_iff f hf).mp) h
    | _ => cases h
  | _ => cases h

end Json.Value

/-! ## Values that are put for a node -/

namespace Json.Value

theorem Tells.hasTag {v : Value} {k : Kind} (h : v.Tells k) : v.HasTag k := by
  cases v with
  | obj ms =>
    obtain ⟨t, ht, hk⟩ := h
    exact ⟨t, mem_named.mp (by rw [ht]; exact List.mem_singleton_self t), hk⟩
  | arr vs => exact h
  | _ => cases h

theorem hasField_of_entry {offset i j : Nat} {fs : List Field} {f : Field} {v w : Value} (hf : fs[i]? = some f)
    (h : v.entry offset i f = some (j, w)) : v.HasField offset fs f w := by
  cases v with
  | obj ms =>
    have hj : ms[j]? = some (f.name, w) := mem_indexed.mp (List.mem_of_mem_head? h)
    exact .member (List.mem_of_getElem? hf) (List.mem_of_getElem? hj)
  | arr vs =>
    obtain ⟨u, hu, e⟩ := Option.map_eq_some_iff.mp h
    cases e
    exact .item hf hu
  | _ => cases h

theorem Asked.trans {s s' s'' : Shape} {v u w : Value} (h : Asked s v s' u) (h' : Asked s' u s'' w) :
    Asked s v s'' w := by
  induction h with
  | here => exact h'
  | field htag hfield _ ih => exact .field htag hfield (ih h')
  | binding hfield _ ih => exact .binding hfield (ih h')
  | present hnull _ ih => exact .present hnull (ih h')
  | item hitem _ ih => exact .item hitem (ih h')
  | argument hitem _ ih => exact .argument hitem (ih h')
  | accessor hmember _ ih => exact .accessor hmember (ih h')

theorem Asked.ne_null {s : Shape} {v u : Value} (h : Asked .node v s u) (hu : u ≠ .null) : v ≠ .null := by
  cases h with
  | here => exact hu
  | field htag =>
    intro hv
    rw [hv] at htag
    exact htag

end Json.Value

open Json.Value (Asked)

section

variable {ν : Type} {N : Pointer → Value → ν → Prop} {q : ν}

theorem Record.Of.exists_field {leaf : (s : Shape) → Pointer → Value → s.Carrier ν → Prop} {π : Pointer}
    {offset : Nat} {v : Value} {fs : List Field} {r : Record ν fs} (hr : Record.Of leaf π offset v fs r)
    (hq : q ∈ Record.gather Shape.nodesIn fs r) :
    ∃ f w ρ x, v.HasField offset fs f w ∧ leaf f.shape ρ w x ∧ q ∈ f.shape.nodesIn x := by
  obtain ⟨e, he, hq⟩ := List.mem_flatMap.mp hq
  obtain ⟨i, hi⟩ := List.getElem?_of_mem he
  obtain ⟨j, w, hentry, hleaf⟩ := hr.exists_entry hi hq
  exact ⟨e.1, w, _, e.2, Value.hasField_of_entry (Record.field_of_entries hi) hentry, hleaf, hq⟩

theorem Shape.Plain.asked (hnull : ∀ π q, ¬ N π .null q) {s : Shape} {π : Pointer} {v : Value} {x : s.Carrier ν}
    (hx : s.Plain N π v x) (hq : q ∈ s.nodesIn x) : ∃ ρ w, Asked s v .node w ∧ N ρ w q := by
  cases s with
  | node =>
    cases List.mem_singleton.mp hq
    exact ⟨π, v, .here _ _, hx⟩
  | optionalNode =>
    obtain ⟨-, rfl⟩ | ⟨c, hc, rfl⟩ := hx
    · cases hq
    · cases List.mem_singleton.mp hq
      refine ⟨π, v, .present ?_ (.here _ _), hc⟩
      intro hv
      rw [hv] at hc
      exact hnull _ _ hc
  | nodes =>
    obtain ⟨vs, rfl, heach⟩ := hx
    obtain ⟨i, w, hw, hN⟩ := heach.exists_right hq
    exact ⟨_, w, .item (List.mem_of_getElem? hw) (.here _ _), hN⟩
  | optionalNodes =>
    obtain ⟨vs, rfl, heach⟩ := hx
    obtain ⟨i, w, hw, hN⟩ := heach.exists_right hq
    exact ⟨_, w, .argument (List.mem_of_getElem? hw) (.here _ _), hN⟩
  | accessors =>
    obtain ⟨ms, bs, rfl, heach, rfl⟩ := hx
    obtain ⟨b, hb, rfl⟩ := List.mem_map.mp hq
    obtain ⟨i, m, hm, -, hN⟩ := heach.exists_right (mem_of_mem_bindAll hb)
    exact ⟨_, m.2, .accessor (List.mem_of_getElem? hm) (.here _ _), hN⟩
  | declarator => exact hx.elim
  | _ => cases hq

theorem Shape.Means.asked (hnull : ∀ π q, ¬ N π .null q) {s : Shape} {π : Pointer} {v : Value} {x : s.Carrier ν}
    (hx : s.Means N π v x) (hq : q ∈ s.nodesIn x) : ∃ ρ w, Asked s v .node w ∧ N ρ w q := by
  by_cases hs : s = .declarator
  · subst hs
    have hgather : q ∈ Record.gather nodesIn Declarator.fields x.toRecord := by
      simpa [Record.gather, Record.entries, nodesIn, Declarator.toRecord, Declarator.children] using hq
    obtain ⟨f, w, ρ, y, hfield, hy, hq⟩ := Record.Of.exists_field hx hgather
    obtain ⟨σ, u, hasked, hN⟩ := Plain.asked hnull hy hq
    exact ⟨σ, u, .binding hfield hasked, hN⟩
  · rw [Shape.means_eq_plain _ hs] at hx
    exact hx.asked hnull hq

theorem Form.Means.asked (hnull : ∀ π q, ¬ N π .null q) {v : Value} {f : Form ν} (hf : Form.Means N v f)
    (hq : q ∈ f.children) : ∃ ρ w, Asked .node v .node w ∧ N ρ w q := by
  obtain ⟨k, r, rfl, htells, hr⟩ := hf
  obtain ⟨f, w, ρ, x, hfield, hx, hq⟩ := hr.exists_field (Form.mem_children_ofRecord.mp hq)
  obtain ⟨σ, u, hasked, hN⟩ := Shape.Means.asked hnull hx hq
  exact ⟨σ, u, .field htells.hasTag hfield hasked, hN⟩

end

namespace Node

theorem ReadFrom.asked {v : Value} {p : Position} {π : Pointer} (h : ReadFrom v p π) {u : Value} (hu : u ≠ .null) :
    Asked .node (v.replace π u) .node u := by
  induction h with
  | root v => exact .here _ _
  | @child v w g i c p π ρ hlayer hq hw hbelow ih =>
    rw [Value.replace_append hw]
    refine Asked.trans ?_ ih
    have hne : w.replace ρ u ≠ .null := ih.ne_null hu
    -- the node above has the same children as before, and at the label of this one the new value is asked
    obtain ⟨j, σ, -, -, -, hlabel, -, hswap⟩ := hlayer.swap (List.mem_of_getElem? hq)
    cases hlabel
    have hnull : ∀ τ q, ¬ Swapped Read (j :: σ) (w.replace ρ u) τ .null q := by
      intro τ q hq
      obtain ⟨-, hq⟩ := hq
      split at hq
      · exact hne hq.symm
      · cases hq
    obtain ⟨τ, y, hasked, hlabel, hy⟩ := (hswap (w.replace ρ u)).asked hnull (List.mem_of_getElem? hq)
    rw [if_pos hlabel.symm] at hy
    rw [hy] at hasked
    exact hasked

end Node

/-- A value that is not read as a node may not be written for a node. At the root it needs a name for its tag, for
this to be found only after the text was read. -/
theorem Spot.parse_refuses {source : String} {t : Node} {p : Position} (spot : Spot source p)
    (h : Node.parse source = .ok t) {u : Value} {y : String} (hu : u.Document y.toList) (hnull : u ≠ .null)
    (htag : spot.pointer = [] → u.Tagged) (hn : ¬ ∃ n, Node.ofValue u = .ok n)
    (hs : Shallow (spot.before ++ (y ++ spot.after))) :
    ∃ m, Node.parse (spot.before ++ (y ++ spot.after)) = .error (.mismatch m none) := by
  have hdoc := spot.document_replace hu
  have htagged := spot.readFrom.tagged_replace (spot.tagged_reads h).1 htag
  rcases Node.parse_document hdoc with ⟨-, hparse⟩ | ⟨hdeep, -⟩ | ⟨hno, -⟩
  · cases hv : Node.ofValue (spot.value.replace spot.pointer u) with
    | ok k => exact absurd ((spot.readFrom.asked hnull).readable ⟨k, hv⟩) hn
    | error m => exact ⟨m, by rw [hparse, hv]; rfl⟩
  · exact absurd (hs.nesting_lt hdoc) (Nat.not_lt.mpr hdeep)
  · exact absurd htagged hno

/-! ## Malformed parts -/

namespace Node

/-- A malformed part is never passed over, whatever the rest of the text is. -/
theorem parse_refuses_malformed {source : String} {v u : Value} {s : Shape} (hdoc : v.Document source.toList)
    (hn : v.nesting ≤ 127) (hasked : Value.Asked .node v s u) (hu : u.Malformed s) :
    ∃ m place, parse source = .error (.mismatch m place) := by
  rcases parse_document hdoc with ⟨-, hparse⟩ | ⟨hdeep, -⟩ | ⟨-, hparse⟩
  · cases hv : ofValue v with
    | ok n => exact absurd (hasked.readable ⟨n, hv⟩) hu.not_readable
    | error m => exact ⟨m, none, by rw [hparse, hv]; rfl⟩
  · unfold maxNesting at hdeep
    omega
  · exact hparse

def emptyReturn : Value :=
  .obj [("type", .str "ReturnStatement")]

def doubleGetter : Value :=
  .obj [("type", .str "PropertyDeclaration"), ("declarator", plainDeclarator),
    ("content", .obj [("get", emptyReturn), ("get", identifierValue "y")])]

def doubleGetterProgram : Value :=
  .arr [.str "Ast", .arr [doubleGetter]]

theorem replaced_getter_refused : ∃ m place, parse doubleGetterProgram.compact = .error (.mismatch m place) := by
  have hdoc : doubleGetterProgram.Document doubleGetterProgram.compact.toList := Value.document_numberless rfl
  have hreturn : emptyReturn.Malformed .node := by
    refine .inr (.inr ⟨.returning, ⟨_, .head _, Kind.told_name .returning⟩, ⟨"value", .node⟩, by decide, .inl ?_⟩)
    unfold Field.Required
    decide
  have hprogram : doubleGetterProgram.HasTag .program := ⟨_, rfl, Kind.told_name .program⟩
  have hbody : doubleGetterProgram.HasField 1 Kind.program.fields ⟨"body", .nodes⟩ (.arr [doubleGetter]) :=
    .item (i := 0) rfl rfl
  have hproperty : doubleGetter.HasTag .property := ⟨_, .head _, Kind.told_name .property⟩
  have hcontent : doubleGetter.HasField 1 Kind.property.fields ⟨"content", .accessors⟩
      (.obj [("get", emptyReturn), ("get", identifierValue "y")]) :=
    .member (by decide) (.tail _ (.tail _ (.head _)))
  apply parse_refuses_malformed hdoc (by decide) _ hreturn
  apply Value.Asked.field hprogram hbody
  apply Value.Asked.item (.head _)
  apply Value.Asked.field hproperty hcontent
  exact .accessor (.head _) (.here .node emptyReturn)

end Node

end SharpTree
