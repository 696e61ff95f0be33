import SharpTree.Proofs.Node.Rewriting
import SharpTree.Proofs.Source.Refusal
import SharpTree.Proofs.Source.Site

/-!
# Tags inside a text

The outermost node of a text needs a name for its tag. A node inside it may have
the number of its kind instead, and the declarator of a property is read without
a look at its tag. Here the same value is read in both places: a list item is
read on its own too once its number is written as a name (`parse_listed`), and a
declarator is the same in a property and in a declaration if its tag is right
(`declarator_readings`).
-/

namespace SharpTree

open Json (Value Number Blanks SpellsChars SpellsString)
open Json.Value (named Document Spells)
open Source (blanks_nil bind_eq_ok document_unique)

/-! ## A value inside the text of a node -/

theorem Kind.verbatim_name (k : Kind) : Verbatim k.name := by
  cases k <;> decide

theorem document_listed {v : Value} {content : String} (h : v.Document content.toList) :
    (Value.arr [v]).Document ("[" ++ content ++ "]").toList := by
  obtain ⟨b₁, w, b₂, hb₁, hw, hb₂, hs⟩ := h
  apply Spells.document
  refine ⟨_, ⟨b₁, w, b₂ ++ [']'], hb₁, hw, ⟨b₂, hb₂, rfl⟩, rfl⟩, ?_⟩
  simp [hs]

theorem Form.ofRecord_inj {ν : Type} {k : Kind} {r r' : Record ν k.fields} (h : ofRecord k r = ofRecord k r') :
    r = r' := by
  have hback : ∀ r : Record ν k.fields, HEq (ofRecord k r).toRecord r := by
    intro r
    cases k <;> rfl
  have hr := hback r
  rw [h] at hr
  exact eq_of_heq (hr.symm.trans (hback r'))

namespace Node

variable {text content : String} {v : Value} {n : Node}

theorem parse_eq_ok_of_document (h : v.Document text.toList) :
    parse text = .ok n ↔ v.nesting < maxNesting ∧ v.Tagged ∧ ofValue v = .ok n := by
  rw [parse_eq_ok_iff]
  constructor
  · intro hread
    obtain ⟨u, hu, hread⟩ := hread
    cases document_unique h hu
    exact hread
  · intro hread
    exact ⟨v, h, hread⟩

theorem parse_nodeText (tag field : String) (htag : Verbatim tag) (hfield : Verbatim field) (hne : field ≠ "type")
    (h : v.Document content.toList) (hn : v.nesting ≤ 126) :
    parse (nodeText tag field content) = .ok n ↔ ofValue (.obj [("type", .str tag), (field, v)]) = .ok n := by
  rw [parse_eq_ok_of_document (document_nodeText htag hfield h)]
  have htagged : (Value.obj [("type", .str tag), (field, v)]).Tagged := ⟨tag, by simp [named, hne]⟩
  have hnest : (Value.obj [("type", .str tag), (field, v)]).nesting < maxNesting := by
    simp only [Value.nesting, Value.nestingMembers, maxNesting]
    omega
  simp [htagged, hnest]

theorem read_eq_ok {kind : Except Mismatch Kind} {fields : (k : Kind) → Except Mismatch (Record Node k.fields)}
    {k : Kind} {r : Record Node k.fields} :
    (kind >>= fun k => fields k >>= fun r => .ok (mk (.ofRecord k r))) = .ok (mk (.ofRecord k r)) ↔
      kind = .ok k ∧ fields k = .ok r := by
  constructor
  · intro h
    obtain ⟨j, hj, h⟩ := bind_eq_ok.mp h
    obtain ⟨q, hq, h⟩ := bind_eq_ok.mp h
    have hform : Form.ofRecord j q = Form.ofRecord k r := mk.inj (Except.ok.inj h)
    have hkind := congrArg Form.kind hform
    rw [Form.kind_ofRecord, Form.kind_ofRecord] at hkind
    subst hkind
    rw [Form.ofRecord_inj hform] at hq
    exact ⟨hj, hq⟩
  · intro h
    rw [bind_eq_ok]
    exact ⟨k, h.1, bind_eq_ok.mpr ⟨r, h.2, rfl⟩⟩

theorem kindOfMembers_iff {ms : List (String × Value)} {k : Kind} :
    Reading.kindOfMembers none (Reading.ofMemberValues ms) = .ok k ↔ (Value.obj ms).Tells k := by
  rw [Reading.kindOfMembers_eq_ok, Reading.named_ofMemberValues]
  constructor
  · intro h
    rcases h with ⟨h, -⟩ | ⟨-, a, ha, hk⟩
    · cases h
    · obtain ⟨t, ht, rfl⟩ := List.map_eq_singleton_iff.mp ha
      exact ⟨t, ht, Reading.ofValue_kind.mp hk⟩
  · intro h
    obtain ⟨t, ht, hk⟩ := h
    exact .inr ⟨rfl, _, by rw [ht]; rfl, Reading.ofValue_kind.mpr hk⟩

/-- An object is read as a node if it tells the kind of it and has no field twice, and each field has the contents
that its value is read as. -/
theorem ofValue_members {ms : List (String × Value)} {k : Kind} {r : Record Node k.fields} :
    ofValue (.obj ms) = .ok (mk (.ofRecord k r)) ↔ (Value.obj ms).Tells k ∧
      (∀ f ∈ k.fields, (named f.name ms).length ≤ 1) ∧
        Record.Stands (fun w s x => Reading.ofValue w s = .ok x) (fun _ f => (named f.name ms).head?)
          k.fields r := by
  change Reading.nodeOfMembers (Reading.ofMemberValues ms) = _ ↔ _
  unfold Reading.nodeOfMembers
  rw [read_eq_ok, kindOfMembers_iff, Record.ofMembers_eq_ok k.fields_nodup]
  simp only [Reading.named_ofMemberValues, List.length_map]
  refine and_congr_right fun _ => and_congr_right fun _ => Record.stands_congr fun i f _ x => ?_
  cases named f.name ms <;> exact Iff.rfl

theorem ofValue_sole {k : Kind} (tag field : String) (hk : k.Told (.str tag)) (hne : field ≠ "type")
    {r : Record Node k.fields} : ofValue (.obj [("type", .str tag), (field, v)]) = .ok (mk (.ofRecord k r)) ↔
      Record.Stands (fun w s x => Reading.ofValue w s = .ok x) (fun _ f => if f.name = field then some v else none)
        k.fields r := by
  have hnamed (f : Field) (hf : f ∈ k.fields) :
      named f.name [("type", .str tag), (field, v)] = if f.name = field then [v] else [] := by
    have htype : "type" ≠ f.name := by
      intro e
      exact k.type_not_mem_fields (e ▸ List.mem_map_of_mem hf)
    rw [named_cons, named_ne htype]
    by_cases h : f.name = field
    · rw [h, named_self, if_pos rfl]
      rfl
    · rw [named_ne (Ne.symm h), if_neg h]
      rfl
  have htells : (Value.obj [("type", .str tag), (field, v)]).Tells k := ⟨.str tag, by simp [named, hne], hk⟩
  have hfits : ∀ f ∈ k.fields, (named f.name [("type", .str tag), (field, v)]).length ≤ 1 := by
    intro f hf
    rw [hnamed f hf]
    split <;> simp
  rw [ofValue_members, and_iff_right htells, and_iff_right hfits]
  apply Record.stands_congr
  intro i f hf x
  rw [hnamed f hf]
  split <;> exact Iff.rfl

theorem ofValue_program : ofValue (.obj [("type", .str "Ast"), ("body", .arr [v])]) = .ok (mk (.program [n])) ↔
    ofValue v = .ok n := by
  refine (ofValue_sole (r := ([n], ())) "Ast" "body" (Kind.told_name .program) (by decide)).trans ?_
  simp only [Record.Stands, Field.Stands, if_true, and_true]
  rw [Reading.ofValue_eq_ok .nodes []]
  constructor
  · intro h
    obtain ⟨vs, hvs, he⟩ := h
    cases hvs
    exact (each_cons.mp he).1
  · intro hv
    exact ⟨[v], rfl, each_cons.mpr ⟨hv, each_nil⟩⟩

theorem ofValue_localVar :
    ofValue (.obj [("type", .str "VariableDeclaration"), ("declarator", v)]) = .ok (mk (.localVar n)) ↔
      ofValue v = .ok n := by
  refine (ofValue_sole (r := (n, ())) _ _ (Kind.told_name .localVar) (by decide)).trans ?_
  simp only [Record.Stands, Field.Stands, if_true, and_true]
  exact Iff.rfl

theorem ofValue_property {ms : Option (List Modifier)} {d : Declarator Node} {as : List (Accessor × Node)} :
    ofValue (.obj [("type", .str "PropertyDeclaration"), ("declarator", v)]) = .ok (mk (.property ms d as)) ↔
      ms = none ∧ Reading.ofValue v .declarator = .ok d ∧ as = [] := by
  refine (ofValue_sole (r := (ms, d, as, ())) _ _ (Kind.told_name .property) (by decide)).trans ?_
  simp [Record.Stands, Field.Stands, Shape.absent?, eq_comm]

end Node

/-! ## The tag of a value -/

namespace Json.Value

theorem document_numberless {v : Value} (h : v.numbers = []) : v.Document v.compact.toList := by
  apply document_compact
  simp [h]

/-- The tag of a node: its only member `type`, or its first item. -/
def TagIs : Value → Value → Prop
  | .obj ms, t => named "type" ms = [t]
  | .arr vs, t => vs.head? = some t
  | _, _ => False

/-- What is left of a node for a reader that knows its kind: a list loses its tag. -/
def untagged : Value → Value
  | .arr vs => .arr vs.tail
  | v => v

theorem nesting_untagged (v : Value) : v.untagged.nesting ≤ v.nesting := by
  cases v with
  | arr vs =>
    cases vs with
    | nil => exact Nat.le_refl _
    | cons t vs =>
      simp only [untagged, List.tail_cons, nesting, nestingItems]
      omega
  | _ => exact Nat.le_refl _

theorem tells_iff {v : Value} {k : Kind} : v.Tells k ↔ ∃ t, v.TagIs t ∧ k.Told t := by
  cases v <;> simp [Tells, TagIs]

theorem tagged_iff {v : Value} : v.Tagged ↔ ∃ s, v.TagIs (.str s) := by
  cases v with
  | arr vs => cases vs <;> simp [Tagged, TagIs]
  | _ => simp [Tagged, TagIs]

theorem TagIs.unique {v t t' : Value} (h : v.TagIs t) (h' : v.TagIs t') : t = t' := by
  cases v with
  | obj ms => exact List.singleton_inj.mp (h.symm.trans h')
  | arr vs => exact Option.some.inj (h.symm.trans h')
  | _ => cases h

theorem sameFields_setChild {v : Value} {j : Nat} (k : Kind) (u : Value)
    (h : ∀ (i : Nat) f a, f ∈ k.fields → v.entry 1 i f = some a → a.1 ≠ j) :
    SameFields 1 k.fields v (v.setChild j u) where
  fits hv := fits_setChild hv j u
  absent i f _ hnone := by rw [entry_setChild, hnone, Option.map_none]
  present i f a hf ha := by
    refine ⟨a, ?_, fun x hx => hx⟩
    rw [entry_setChild, ha, Option.map_some, if_neg (h i f a (List.mem_of_getElem? hf) ha)]

theorem TagIs.exists_child {v t : Value} (h : v.TagIs t) : ∃ j, v.child? j = some t ∧
    ∀ u, (v.setChild j u).TagIs u ∧ ∀ k : Kind, SameFields 1 k.fields v (v.setChild j u) := by
  cases v with
  | obj ms =>
    have hindexed : (indexed "type" ms).map Prod.snd = [t] := (map_snd_indexed "type" ms).trans h
    obtain ⟨⟨j, t⟩, he, rfl⟩ := List.map_eq_singleton_iff.mp hindexed
    have hj : ms[j]? = some ("type", t) := mem_indexed.mp (by rw [he]; exact List.mem_singleton_self _)
    refine ⟨j, by simp [child?, hj], ?_⟩
    intro u
    constructor
    · change named "type" (ms.modify j fun m => (m.1, u)) = [u]
      rw [← map_snd_indexed, indexed_modify, he]
      simp
    · intro k
      apply sameFields_setChild
      intro i f a hf ha e
      have hm : ms[a.1]? = some (f.name, a.2) := mem_indexed.mp (List.mem_of_mem_head? ha)
      rw [e, hj] at hm
      have hname : "type" = f.name := congrArg Prod.fst (Option.some.inj hm)
      exact k.type_not_mem_fields (hname ▸ List.mem_map_of_mem hf)
  | arr vs =>
    cases vs with
    | nil => cases h
    | cons t' vs =>
      refine ⟨0, h, ?_⟩
      intro u
      refine ⟨rfl, fun k => ?_⟩
      apply sameFields_setChild
      intro i f a hf ha e
      obtain ⟨w, -, rfl⟩ := Option.map_eq_some_iff.mp ha
      cases e
  | _ => cases h

end Json.Value

namespace Node

variable {text : String} {v : Value} {n : Node}

/-! ## A node on its own -/

theorem exists_retagged {k : Kind} {t : Value} (h : v.TagIs t) (ht : k.Told t) (hv : ofValue v = .ok n) :
    ∃ j, v.child? j = some t ∧ ∀ u, k.Told u → (v.setChild j u).TagIs u ∧ ofValue (v.setChild j u) = .ok n := by
  obtain ⟨j, hj, hset⟩ := h.exists_child
  refine ⟨j, hj, ?_⟩
  intro u hu
  obtain ⟨htag, hsame⟩ := hset u
  refine ⟨htag, ?_⟩
  have htells : v.Tells k := Value.tells_iff.mpr ⟨t, h, ht⟩
  have hfollows : Shape.node.Follows v (v.setChild j u) := by
    apply (Shape.Gathers.node htells).follows
    · intro k' _ hk'
      rw [← htells.unique hk']
      exact Value.tells_iff.mpr ⟨u, htag, hu⟩
    · exact hsame k
  exact hfollows n hv

/-- An item of a list is read on its own as the node that it is in the list, unless a number is its tag. Then it is
refused, and read as that node with the name of the kind in place of the number. -/
theorem parse_listed (h : Json.Grammar.Document 125 text.toList)
    (hn : parse (nodeText "Ast" "body" ("[" ++ text ++ "]")) = .ok (mk (.program [n]))) :
    parse text = .ok n ∨ ∃ (v : Value) (number : Nat), v.Document text.toList ∧ v.TagIs (.num (.int number)) ∧
      (∃ m place, parse text = .error (.mismatch m place)) ∧
      ∃ before digits after : String, text = before ++ (digits ++ after) ∧
        Json.SpellsNumber (.int number) digits.toList ∧
        parse (before ++ ("\"" ++ (Kind.ofNumber number).name ++ "\"" ++ after)) = .ok n := by
  obtain ⟨v, hdoc, hnest⟩ := Json.Grammar.document_iff.mp h
  have hlist : (Value.arr [v]).nesting ≤ 126 := by
    simp only [Value.nesting, Value.nestingItems]
    omega
  have hv : ofValue v = .ok n :=
    ofValue_program.mp ((parse_nodeText _ _ (by decide) (by decide) (by decide) (document_listed hdoc) hlist).mp hn)
  have hdeep : v.nesting < maxNesting := by
    unfold maxNesting
    omega
  obtain ⟨k, -, -, htells, -⟩ := ofValue_eq_ok.mp hv
  obtain ⟨t, htag, ht⟩ := Value.tells_iff.mp htells
  cases ht with
  | inl hname =>
    obtain ⟨name, rfl, -⟩ := hname
    left
    exact (parse_eq_ok_of_document hdoc).mpr ⟨hdeep, Value.tagged_iff.mpr ⟨name, htag⟩, hv⟩
  | inr hnumber =>
    obtain ⟨number, rfl, hk⟩ := hnumber
    right
    refine ⟨v, number, hdoc, htag, ?_, ?_⟩
    · have huntagged : ¬ v.Tagged := by
        intro htagged
        obtain ⟨s, hs⟩ := Value.tagged_iff.mp htagged
        cases htag.unique hs
      rcases parse_document hdoc with ⟨-, hparse⟩ | ⟨hlimit, -⟩ | ⟨-, hparse⟩
      · rw [hv] at hparse
        exact absurd ((parse_eq_ok_of_document hdoc).mp hparse).2.1 huntagged
      · omega
      · exact hparse
    · obtain ⟨j, hj, hset⟩ := exists_retagged htag (.inr ⟨number, rfl, hk⟩) hv
      rw [← hk]
      obtain ⟨hnew, hread⟩ := hset (.str k.name) k.told_name
      have hat : v.at? [j] = some (.num (.int number)) := by rw [Value.at?_singleton, hj]
      obtain ⟨before, digits, after, htext, hdigits, hframe⟩ := Value.exists_document_frame hdoc hat
      refine ⟨before, digits, after, htext, hdigits, ?_⟩
      -- the name is written where the number was
      have hname : (Value.str k.name).Spells ('"' :: (k.name.toList ++ ['"'])) := k.verbatim_name.spells
      have hreplace : v.replace [j] (.str k.name) = v.setChild j (.str k.name) := by simp [Value.replace, hj]
      have hframed := hframe hname.document
      rw [hreplace] at hframed
      have hshallow : (v.setChild j (.str k.name)).nesting < maxNesting :=
        Nat.lt_of_le_of_lt (Value.nesting_setChild_le hj (Nat.zero_le _)) hdeep
      refine (parse_eq_ok_of_document ?_).mpr ⟨hshallow, Value.tagged_iff.mpr ⟨_, hnew⟩, hread⟩
      simpa using hframed

def numberedIdentifier : Value :=
  .obj [("type", .num (.int 8)), ("value", .str "x")]

theorem document_numberedIdentifier : numberedIdentifier.Document "\x7b\"type\":8,\"value\":\"x\"\x7d".toList := by
  have hcompact : numberedIdentifier.compact = "\x7b\"type\":8,\"value\":\"x\"\x7d" := by decide +kernel
  rw [← hcompact]
  apply Value.document_compact
  intro x hx
  have hx : x = .int 8 := by simpa [numberedIdentifier, Value.numbers, Value.numbersMembers] using hx
  rw [hx]
  exact Json.spellsNumber_text (by simp [Number.Fits])

theorem parse_listed_numbered :
    parse (nodeText "Ast" "body" "[\x7b\"type\":8,\"value\":\"x\"\x7d]") = .ok (mk (.program [ident "x"])) ∧
      ∃ before digits after : String, "\x7b\"type\":8,\"value\":\"x\"\x7d" = before ++ (digits ++ after) ∧
        parse (before ++ ("\"Identifier\"" ++ after)) = .ok (ident "x") := by
  have hn : parse (nodeText "Ast" "body" ("[" ++ "\x7b\"type\":8,\"value\":\"x\"\x7d" ++ "]")) =
      .ok (mk (.program [ident "x"])) := by
    decide +kernel
  refine ⟨hn, ?_⟩
  have hdoc := document_numberedIdentifier
  rcases parse_listed (Json.Grammar.document_iff.mpr ⟨_, hdoc, by decide⟩) hn with
    h | ⟨v, number, hv, htag, -, before, digits, after, htext, -, hparse⟩
  · have hne : parse "\x7b\"type\":8,\"value\":\"x\"\x7d" ≠ .ok (ident "x") := by decide +kernel
    exact absurd h hne
  · cases document_unique hdoc hv
    have hnumber : 8 = number := by
      have hown : numberedIdentifier.TagIs (.num (.int 8)) := rfl
      have hsame := hown.unique htag
      simp only [Value.num.injEq, Number.int.injEq] at hsame
      omega
    subst hnumber
    exact ⟨before, digits, after, htext, hparse⟩

theorem item_refused_alone : ¬ ∀ (text : String) (n : Node), Json.Grammar.Document 125 text.toList →
    parse (nodeText "Ast" "body" ("[" ++ text ++ "]")) = .ok (mk (.program [n])) → parse text = .ok n := by
  intro h
  have hdoc : Json.Grammar.Document 125 "\x7b\"type\":8,\"value\":\"x\"\x7d".toList :=
    Json.Grammar.document_iff.mpr ⟨_, document_numberedIdentifier, by decide⟩
  have hne : parse "\x7b\"type\":8,\"value\":\"x\"\x7d" ≠ .ok (ident "x") := by decide +kernel
  exact hne (h _ (ident "x") hdoc (by decide +kernel))

/-! ## Declarators -/

theorem map_ofRecord_eq_ok {fields : Except Mismatch (Record Node Declarator.fields)} {d : Declarator Node} :
    Declarator.ofRecord <$> fields = .ok d ↔ fields = .ok d.toRecord := by
  rw [Reading.map_eq_ok]
  constructor
  · intro h
    obtain ⟨r, hr, hd⟩ := h
    rw [hd]
    exact hr
  · intro h
    exact ⟨_, h, rfl⟩

theorem ofValue_declarator {d : Declarator Node} : ofValue v = .ok (mk (.declarator d)) ↔
    v.Tells .declarator ∧ Reading.ofValue v.untagged .declarator = .ok d := by
  cases v with
  | obj ms =>
    change Reading.nodeOfMembers (Reading.ofMemberValues ms) = .ok (mk (.ofRecord .declarator d.toRecord)) ↔
      _ ∧ Declarator.ofRecord <$> Record.ofMembers Declarator.fields (Reading.ofMemberValues ms) = .ok d
    rw [map_ofRecord_eq_ok, Reading.nodeOfMembers, read_eq_ok, kindOfMembers_iff]
  | arr vs =>
    cases vs with
    | nil =>
      constructor
      · intro h
        cases h
      · intro h
        obtain ⟨⟨t, ht, -⟩, -⟩ := h
        cases ht
    | cons t vs =>
      change Reading.nodeOfItems (Reading.ofValue t :: Reading.ofValues vs) =
        .ok (mk (.ofRecord .declarator d.toRecord)) ↔
          _ ∧ Declarator.ofRecord <$> Record.ofItems .declarator 0 Declarator.fields (Reading.ofValues vs) = .ok d
      have htells : (Value.arr (t :: vs)).Tells .declarator ↔ Reading.ofValue t .kind = .ok .declarator := by
        rw [Reading.ofValue_kind]
        simp [Value.Tells]
      rw [map_ofRecord_eq_ok, Reading.nodeOfItems, read_eq_ok, htells]
  | _ => simp [ofValue, Reading.ofValue, Reading.ofScalar, Reading.refuse, Value.Tells]

/-- A declaration of a variable reads its declarator as a property does, except that it asks for the tag:
it reads a declarator if the tag tells it to and the property reads the same from the rest. The property
never looks at a tag. -/
theorem declarator_readings {rest : String} (h : v.Document text.toList) (hrest : v.untagged.Document rest.toList)
    (hn : v.nesting ≤ 126) (d : Declarator Node) :
    parse (nodeText "VariableDeclaration" "declarator" text) = .ok (mk (.localVar (mk (.declarator d)))) ↔
      v.Tells .declarator ∧
        ∃ ms as, parse (nodeText "PropertyDeclaration" "declarator" rest) = .ok (mk (.property ms d as)) := by
  have hle : v.untagged.nesting ≤ 126 := Nat.le_trans v.nesting_untagged hn
  have hread (m : Node) := parse_nodeText (n := m) "PropertyDeclaration" "declarator" (by decide) (by decide)
    (by decide) hrest hle
  have hproperty :
      (∃ ms as, parse (nodeText "PropertyDeclaration" "declarator" rest) = .ok (mk (.property ms d as))) ↔
        Reading.ofValue v.untagged .declarator = .ok d := by
    simp [hread, ofValue_property]
  rw [parse_nodeText _ _ (by decide) (by decide) (by decide) h hn, ofValue_localVar, ofValue_declarator, hproperty]

def listedDeclarator : Value :=
  .arr [.str "VariableDeclarator", identifierValue "int", .arr [.str "Identifier", .str "Count"]]

theorem declarator_readings_listed :
    parse (nodeText "VariableDeclaration" "declarator" listedDeclarator.compact) =
      .ok (mk (.localVar (mk (.declarator ⟨ident "int", ident "Count", none⟩)))) := by
  have hdoc : listedDeclarator.Document listedDeclarator.compact.toList := Value.document_numberless rfl
  have hrest : listedDeclarator.untagged.Document listedDeclarator.untagged.compact.toList :=
    Value.document_numberless rfl
  have hread : Reading.ofValue listedDeclarator.untagged .declarator = .ok ⟨ident "int", ident "Count", none⟩ := by
    decide +kernel
  have hproperty := (parse_nodeText "PropertyDeclaration" "declarator" (by decide) (by decide) (by decide) hrest
    (by decide)).mpr (ofValue_property.mpr ⟨rfl, hread, rfl⟩)
  apply (declarator_readings hdoc hrest (by decide) _).mpr
  exact ⟨⟨_, rfl, Kind.told_name .declarator⟩, none, [], hproperty⟩

def strangeDeclarator : Value :=
  .obj [("type", .str "Frobnicate"), ("varType", identifierValue "int"), ("varName", identifierValue "Count")]

theorem property_ignores_tag : ¬ ∀ (v : Value) (text : String), v.Document text.toList → v.nesting ≤ 126 →
    ∀ d : Declarator Node,
      (∃ ms as, parse (nodeText "PropertyDeclaration" "declarator" text) = .ok (mk (.property ms d as))) ↔
        parse (nodeText "VariableDeclaration" "declarator" text) = .ok (mk (.localVar (mk (.declarator d)))) := by
  intro h
  have hdoc : strangeDeclarator.Document strangeDeclarator.compact.toList := Value.document_numberless rfl
  have hread : Reading.ofValue strangeDeclarator .declarator = .ok ⟨ident "int", ident "Count", none⟩ := by
    decide +kernel
  have hunknown : ofValue strangeDeclarator = .ok (mk .unsupported) := by decide +kernel
  have hproperty := (parse_nodeText "PropertyDeclaration" "declarator" (by decide) (by decide) (by decide) hdoc
    (by decide)).mpr (ofValue_property.mpr ⟨rfl, hread, rfl⟩)
  have hvariable := (parse_nodeText "VariableDeclaration" "declarator" (by decide) (by decide) (by decide) hdoc
    (by decide)).mpr (ofValue_localVar.mpr hunknown)
  have heq := ((h _ _ hdoc (by decide) _).mp ⟨_, _, hproperty⟩).symm.trans hvariable
  cases heq

end Node

end SharpTree
