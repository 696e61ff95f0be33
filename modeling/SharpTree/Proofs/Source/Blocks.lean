import SharpTree.Proofs.Source.Malformed

/-!
# The kind of a block

A block that does not say its kind holds declarations. It may say the kind by a
name, or by an object with the name as its only key, and `code` is the only name
that is not one of declarations. Other values are refused in its place, and with
them the whole text, wherever the block stands in it (`block_kind_set`).
-/

namespace SharpTree

open Json (Value)
open Json.Value (named)

/-! ## What a block says -/

/-- The kind of a block that has this value for its kind, or none. -/
inductive BlockKind.Said : Option Value → BlockKind → Prop where
  | nothing : Said none .decl
  | name (s : String) : Said (some (.str s)) (.ofName s)
  | key (s : String) {w : Value} (h : w = .null ∨ w = .obj []) : Said (some (.obj [(s, w)])) (.ofName s)

theorem BlockKind.said_iff {x : Option Value} {b : BlockKind} :
    Said x b ↔
      Field.Stands (ν := Node) (fun w s y => Reading.ofValue w s = .ok y) ⟨"blockType", .blockKind⟩ b x := by
  cases x with
  | none =>
    constructor
    · intro h
      cases h
      rfl
    · intro h
      cases h
      exact .nothing
  | some v =>
    refine Iff.trans ?_ Reading.ofValue_blockKind.symm
    constructor
    · intro h
      cases h with
      | name s => exact .inl ⟨s, rfl, rfl⟩
      | key s hw => exact .inr ⟨s, _, rfl, hw, rfl⟩
    · intro h
      rcases h with ⟨s, rfl, rfl⟩ | ⟨s, w, rfl, hw, rfl⟩
      · exact .name s
      · exact .key s hw

namespace Json.Value

/-- The second members have this value for a name, or none, and are the first members otherwise. -/
structure Sets (name : String) (x : Option Value) (ms ns : List (String × Value)) : Prop where
  named_eq : named name ns = x.toList
  others : ns.filter (·.1 ≠ name) = ms.filter (·.1 ≠ name)

theorem Sets.named_other {name other : String} {x : Option Value} {ms ns : List (String × Value)}
    (h : Sets name x ms ns) (hne : other ≠ name) : named other ns = named other ms := by
  have hfilter (ms : List (String × Value)) :
      ms.filter (·.1 = other) = (ms.filter (·.1 ≠ name)).filter (·.1 = other) := by
    rw [List.filter_filter]
    apply List.filter_congr
    intro m _
    by_cases hm : m.1 = other <;> simp [hm, hne]
  unfold named
  rw [hfilter ns, hfilter ms, h.others]

theorem Sets.tagged {name : String} {x : Option Value} {ms ns : List (String × Value)} (h : Sets name x ms ns)
    (hne : "type" ≠ name) (ht : (Value.obj ms).Tagged) : (Value.obj ns).Tagged := by
  obtain ⟨s, hs⟩ := ht
  exact ⟨s, (h.named_other hne).trans hs⟩

end Json.Value

theorem Field.Stands.unique {f : Field} {x y : f.shape.Carrier Node} {o : Option Value}
    (hx : f.Stands (fun w s z => Reading.ofValue w s = .ok z) x o)
    (hy : f.Stands (fun w s z => Reading.ofValue w s = .ok z) y o) : x = y := by
  cases o with
  | none => exact Option.some.inj (hx.symm.trans hy)
  | some v => exact Except.ok.inj (hx.symm.trans hy)

namespace Node

theorem ofValue_block {ms : List (String × Value)} {b : BlockKind} {body : List Node} :
    ofValue (.obj ms) = .ok (mk (.block b body)) ↔ (Value.obj ms).Tells .block ∧
      (∀ f ∈ Kind.block.fields, (named f.name ms).length ≤ 1) ∧
        BlockKind.Said (named "blockType" ms).head? b ∧
          Field.Stands (fun w s x => Reading.ofValue w s = .ok x) ⟨"value", .nodes⟩ body
            (named "value" ms).head? := by
  rw [BlockKind.said_iff]
  refine (ofValue_members (k := .block) (r := (b, body, ()))).trans ?_
  simp only [Record.Stands, and_true]

/-- A block whose kind was set is read as far as something is said about the kind. -/
theorem ofValue_set_block {ms ns : List (String × Value)} {x : Option Value} {kind : BlockKind} {body : List Node}
    (hset : Value.Sets "blockType" x ms ns) (h : ofValue (.obj ms) = .ok (mk (.block kind body))) {n : Node} :
    ofValue (.obj ns) = .ok n ↔ ∃ b, BlockKind.Said x b ∧ n = mk (.block b body) := by
  have hvalue : named "value" ns = named "value" ms := hset.named_other (by decide)
  obtain ⟨htells, hfits, -, hbody⟩ := ofValue_block.mp h
  have htells' : (Value.obj ns).Tells .block := by
    obtain ⟨t, ht, hk⟩ := htells
    exact ⟨t, (hset.named_other (by decide)).trans ht, hk⟩
  have hfits' : ∀ f ∈ Kind.block.fields, (named f.name ns).length ≤ 1 := by
    have hkind : (named "blockType" ns).length ≤ 1 := by
      rw [hset.named_eq]
      cases x <;> simp
    have hone := hfits ⟨"value", .nodes⟩ (by simp)
    rw [← hvalue] at hone
    simp [hkind, hone]
  have hhead : (named "blockType" ns).head? = x := by
    rw [hset.named_eq]
    cases x <;> rfl
  constructor
  · intro hn
    obtain ⟨k, r, hr, hk, -⟩ := ofValue_eq_ok.mp hn
    cases hk.unique htells'
    obtain ⟨b, body', _⟩ := r
    obtain ⟨f⟩ := n
    cases hr
    obtain ⟨-, -, hsaid, hbody'⟩ := ofValue_block.mp hn
    rw [hhead] at hsaid
    rw [hvalue] at hbody'
    exact ⟨b, hsaid, by rw [hbody'.unique hbody]⟩
  · intro hn
    obtain ⟨b, hb, rfl⟩ := hn
    refine ofValue_block.mpr ⟨htells', hfits', ?_, ?_⟩
    · rw [hhead]
      exact hb
    · rw [hvalue]
      exact hbody

/-! ## Blocks in a text -/

/-- If the kind of a block is set to something that a block can say, the text is read as the tree with a block of
the kind that is said. Otherwise it is refused. -/
theorem block_kind_set {source : String} {t : Node} {p : Position} {kind : BlockKind} {body : List Node}
    (h : parse source = .ok t) (hb : t.at? p = some (mk (.block kind body))) :
    Nonempty (Spot source p) ∧
      ∀ (spot : Spot source p) (ms ns : List (String × Value)) (x : Option Value) (text : String),
        spot.part = .obj ms → Value.Sets "blockType" x ms ns → (Value.obj ns).Document text.toList →
          Shallow (spot.before ++ (text ++ spot.after)) →
          (∀ b, BlockKind.Said x b →
              parse (spot.before ++ (text ++ spot.after)) = .ok (t.replace p (mk (.block b body)))) ∧
            ((∀ b, ¬ BlockKind.Said x b) →
              ∃ m, parse (spot.before ++ (text ++ spot.after)) = .error (.mismatch m none)) := by
  refine ⟨exists_spot h hb, ?_⟩
  intro spot ms ns x text hpart hset hdoc hs
  obtain ⟨m, hm, hread, -⟩ := spot.exchange h
  cases hb.symm.trans hm
  rw [hpart] at hread
  have htag : spot.pointer = [] → (Value.obj ns).Tagged := by
    intro hroot
    have hvalue := spot.at_pointer
    rw [hroot, hpart] at hvalue
    have htagged := (spot.tagged_reads h).1
    rw [Option.some.inj hvalue] at htagged
    exact hset.tagged (by decide) htagged
  constructor
  · intro b hsaid
    exact spot.parse_put h hdoc htag ((ofValue_set_block hset hread).mpr ⟨b, hsaid, rfl⟩) hs
  · intro hno
    apply spot.parse_refuses h hdoc (by intro e; cases e) htag _ hs
    intro hn
    obtain ⟨n, hn⟩ := hn
    obtain ⟨b, hsaid, -⟩ := (ofValue_set_block hset hread).mp hn
    exact hno b hsaid

/-! A program of one block, for which the spot is known. -/

def emptyBlock : List (String × Value) :=
  [("type", .str "Block"), ("value", .arr [])]

def sayingBlock (x : Value) : List (String × Value) :=
  [("type", .str "Block"), ("blockType", x), ("value", .arr [])]

def programOf (block : Value) : Value :=
  .obj [("type", .str "Ast"), ("body", .arr [block])]

def blockSpot : Spot (programOf (.obj emptyBlock)).compact [0] where
  value := programOf (.obj emptyBlock)
  pointer := [1, 0]
  part := .obj emptyBlock
  before := nodeStart "Ast" "body" ++ "["
  text := (Value.obj emptyBlock).compact
  after := "]" ++ "\x7d"
  source_eq := by decide +kernel
  document := Value.document_numberless rfl
  readFrom := by
    have hblock : ofValue (.obj emptyBlock) = .ok (mk (.block .decl [])) := rfl
    have hlayer : Form.Means (Labelled Read) (programOf (.obj emptyBlock))
        (.program [([1, 0], mk (.block .decl []))]) := by
      refine ⟨.program, ([([1, 0], mk (.block .decl []))], ()), rfl, ⟨_, rfl, Kind.program.told_name⟩, ?_, ?_⟩
      · intro f hf
        cases List.mem_singleton.mp hf
        exact Nat.le_refl 1
      · exact ⟨⟨_, rfl, each_cons.mpr ⟨⟨rfl, hblock⟩, each_nil⟩⟩, trivial⟩
    exact .child (π := [1, 0]) (ρ := []) hlayer rfl rfl (.root (.obj emptyBlock))
  at_pointer := rfl
  spells := by
    have hprint := Value.print_spells (g := id) Json.blank_compact (.obj emptyBlock) 0 (by intro x hx; cases hx)
    rw [Value.mapNumbers_id] at hprint
    rw [Value.compact, String.toList_ofList]
    exact hprint
  frame := by
    intro u x hu
    rw [← String.toList_ofList (l := x)] at hu ⊢
    have hdoc : (programOf u).Document (nodeText "Ast" "body" ("[" ++ String.ofList x ++ "]")).toList :=
      document_nodeText (by decide) (by decide) (document_listed hu)
    simp only [nodeText_eq, String.toList_append, List.append_assoc] at hdoc ⊢
    exact hdoc

theorem parse_emptyBlock :
    parse (programOf (.obj emptyBlock)).compact = .ok (mk (.program [mk (.block .decl [])])) := by
  decide +kernel

theorem sets_sayingBlock (x : Value) : Value.Sets "blockType" (some x) emptyBlock (sayingBlock x) :=
  ⟨rfl, rfl⟩

theorem block_kind_set_program :
    parse (blockSpot.before ++ ((Value.obj (sayingBlock (.obj [("code", .obj [])]))).compact ++ blockSpot.after)) =
        .ok (mk (.program [mk (.block .code [])])) ∧
      ∃ m, parse (blockSpot.before ++ ((Value.obj (sayingBlock .null)).compact ++ blockSpot.after)) =
        .error (.mismatch m none) := by
  obtain ⟨-, hset⟩ := block_kind_set (p := [0]) parse_emptyBlock rfl
  constructor
  · have hdoc : (Value.obj (sayingBlock (.obj [("code", .obj [])]))).Document _ := Value.document_numberless rfl
    have hshallow : Shallow _ := ⟨_, blockSpot.document_replace hdoc, by decide⟩
    exact (hset blockSpot _ _ _ _ rfl (sets_sayingBlock _) hdoc hshallow).1 _ (.key "code" (.inr rfl))
  · have hdoc : (Value.obj (sayingBlock .null)).Document _ := Value.document_numberless rfl
    have hshallow : Shallow _ := ⟨_, blockSpot.document_replace hdoc, by decide⟩
    refine (hset blockSpot _ _ _ _ rfl (sets_sayingBlock _) hdoc hshallow).2 ?_
    intro b hb
    cases hb

/-- Not every block with a kind other than the name `code` holds declarations. -/
theorem null_kind_refused : ¬ ∀ (source : String) (t : Node) (p : Position) (kind : BlockKind) (body : List Node)
    (spot : Spot source p) (ms ns : List (String × Value)) (x : Value) (text : String),
    parse source = .ok t → t.at? p = some (mk (.block kind body)) → spot.part = .obj ms → x ≠ .str "code" →
      Value.Sets "blockType" (some x) ms ns → (Value.obj ns).Document text.toList →
        Shallow (spot.before ++ (text ++ spot.after)) →
          parse (spot.before ++ (text ++ spot.after)) = .ok (t.replace p (mk (.block .decl body))) := by
  intro h
  have hdoc : (Value.obj (sayingBlock .null)).Document _ := Value.document_numberless rfl
  have hshallow : Shallow _ := ⟨_, blockSpot.document_replace hdoc, by decide⟩
  have hread := h _ _ [0] .decl [] blockSpot _ _ .null _ parse_emptyBlock rfl rfl (by intro e; cases e)
    (sets_sayingBlock .null) hdoc hshallow
  have hne : parse (blockSpot.before ++ ((Value.obj (sayingBlock .null)).compact ++ blockSpot.after)) ≠
      .ok (replace (mk (.program [mk (.block .decl [])])) [0] (mk (.block .decl []))) := by
    decide +kernel
  exact hne hread

end Node

end SharpTree
