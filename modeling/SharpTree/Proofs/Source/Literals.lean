import SharpTree.Proofs.CSharp.Replacement
import SharpTree.Proofs.Node.Objects
import SharpTree.Proofs.Source.Tags

/-!
# Literals as they are given

The value of a literal has its own text in the source of a tree. If that is the
decimal text of an integer that a word can hold, it is also the text of the
literal in the program, and the text of its value where the tree is written. A
string goes into the program as it is (`Node.literal_verbatim`).
-/

namespace SharpTree

open Json (Value Pointer Number Style SpellsChar SpellsString spellsNumber_text)
open Source (document_unique)

namespace Json.Value

/-! ## Where a value is printed -/

/-- Between the two texts the value that is put at the pointer is printed. -/
def PrintFrame (style : Style) (level : Nat) (v : Value) (π : Pointer) (before after : List Char) : Prop :=
  ∀ u : Value, (v.replace π u).print style level = before ++ (u.print style (level + π.length) ++ after)

section
variable (style : Style) {v w : Value} {π : Pointer} {i : Nat}

theorem exists_items_frame {vs : List Value} (hi : i < vs.length) (level : Nat) :
    ∃ before after, ∀ u, printItems style level (vs.set i u) = before ++ (u.print style (level + 1) ++ after) := by
  induction vs generalizing i with
  | nil => simp at hi
  | cons v vs ih =>
    cases i with
    | zero => exact ⟨',' :: style.gap (level + 1), printItems style level vs, fun u => by simp [printItems]⟩
    | succ i =>
      obtain ⟨before, after, h⟩ := ih (by simpa using hi)
      refine ⟨',' :: (style.gap (level + 1) ++ (v.print style (level + 1) ++ before)), after, fun u => ?_⟩
      simp [printItems, h]

theorem exists_members_frame {ms : List (String × Value)} (hi : i < ms.length) (level : Nat) :
    ∃ before after, ∀ u, printMembers style level (ms.modify i fun m => (m.1, u)) =
      before ++ (u.print style (level + 1) ++ after) := by
  induction ms generalizing i with
  | nil => simp at hi
  | cons m ms ih =>
    obtain ⟨k, v⟩ := m
    cases i with
    | zero =>
      refine ⟨',' :: (style.gap (level + 1) ++ (quote k ++ ':' :: style.space)), printMembers style level ms,
        fun u => ?_⟩
      simp [printMembers]
    | succ i =>
      obtain ⟨before, after, h⟩ := ih (by simpa using hi)
      refine ⟨',' :: (style.gap (level + 1) ++ (quote k ++ ':' :: (style.space ++
        (v.print style (level + 1) ++ before)))), after, fun u => ?_⟩
      simp [printMembers, h]

theorem exists_part_frame (h : v.child? i = some w) (level : Nat) :
    ∃ before after, ∀ u, (v.setChild i u).print style level = before ++ (u.print style (level + 1) ++ after) := by
  cases v with
  | arr vs =>
    obtain ⟨hi, -⟩ := List.getElem?_eq_some_iff.mp h
    cases vs with
    | nil => simp at hi
    | cons v vs =>
      cases i with
      | zero => exact ⟨'[' :: style.gap (level + 1), printItems style level vs, fun u => by simp [setChild, print]⟩
      | succ i =>
        obtain ⟨before, after, hframe⟩ := exists_items_frame style (Nat.lt_of_succ_lt_succ hi) level
        refine ⟨'[' :: (style.gap (level + 1) ++ (v.print style (level + 1) ++ before)), after, fun u => ?_⟩
        simp [setChild, print, hframe]
  | obj ms =>
    obtain ⟨m, hm, -⟩ := Option.map_eq_some_iff.mp h
    obtain ⟨hi, -⟩ := List.getElem?_eq_some_iff.mp hm
    cases ms with
    | nil => simp at hi
    | cons m ms =>
      obtain ⟨k, v⟩ := m
      cases i with
      | zero =>
        refine ⟨'{' :: (style.gap (level + 1) ++ (quote k ++ ':' :: style.space)), printMembers style level ms,
          fun u => ?_⟩
        simp [setChild, print]
      | succ i =>
        obtain ⟨before, after, hframe⟩ := exists_members_frame style (Nat.lt_of_succ_lt_succ hi) level
        refine ⟨'{' :: (style.gap (level + 1) ++ (quote k ++ ':' :: (style.space ++
          (v.print style (level + 1) ++ before)))), after, fun u => ?_⟩
        simp [setChild, print, hframe]
  | _ => cases h

theorem exists_printFrame (h : v.at? π = some w) (level : Nat) :
    ∃ before after, PrintFrame style level v π before after := by
  induction π generalizing v level with
  | nil => exact ⟨[], [], fun u => by simp [replace]⟩
  | cons i π ih =>
    obtain ⟨c, hc, hw⟩ := Option.bind_eq_some_iff.mp h
    obtain ⟨before, after, hpart⟩ := exists_part_frame style hc level
    obtain ⟨before', after', hframe⟩ := ih hw (level + 1)
    refine ⟨before ++ before', after' ++ after, fun u => ?_⟩
    have hlevel : level + 1 + π.length = level + (i :: π).length := by simp [Nat.add_comm, Nat.add_left_comm]
    simp only [replace, hc]
    rw [hpart, hframe, hlevel]
    simp

theorem setChild_self (h : v.child? i = some w) : v.setChild i w = v := by
  cases v with
  | arr vs =>
    obtain ⟨hi, rfl⟩ := List.getElem?_eq_some_iff.mp h
    simp [setChild]
  | obj ms =>
    obtain ⟨m, hm, rfl⟩ := Option.map_eq_some_iff.mp h
    obtain ⟨hi, rfl⟩ := List.getElem?_eq_some_iff.mp hm
    simp [setChild, List.modify_eq_set_getElem?, hi]
  | _ => cases h

theorem replace_self (h : v.at? π = some w) : v.replace π w = v := by
  induction π generalizing v with
  | nil =>
    cases h
    rfl
  | cons i π ih =>
    obtain ⟨c, hc, hw⟩ := Option.bind_eq_some_iff.mp h
    simp only [replace, hc, ih hw]
    exact setChild_self hc

end

/-! ## Where a literal has its value -/

/-- The part at the pointer is the value of the literal that is read at the position. -/
def LiteralAt (v : Value) (p : Position) (π : Pointer) (w : Value) : Prop :=
  ∃ ρ part j, Node.ReadFrom v p ρ ∧ v.at? ρ = some part ∧ part.entry 1 0 ⟨"value", .literal⟩ = some (j, w) ∧
    π = ρ ++ [j]

theorem LiteralAt.at? {v w : Value} {p : Position} {π : Pointer} (h : v.LiteralAt p π w) : v.at? π = some w := by
  obtain ⟨ρ, part, j, -, hpart, hentry, rfl⟩ := h
  rw [at?_append, hpart, Option.bind_some, at?_singleton]
  exact child?_of_entry hentry

end Json.Value

/-- Where the text has the value of the literal at a position. -/
structure LiteralSpot (source : String) (p : Position) where
  value : Value
  pointer : Pointer
  literal : Value
  before : String
  text : String
  after : String
  source_eq : source = before ++ (text ++ after)
  document : value.Document source.toList
  place : value.LiteralAt p pointer literal
  spells : literal.Spells text.toList
  frame : value.Frame pointer before.toList after.toList

namespace Node

section
variable {v : Value} {m : Node}

theorem ofValue_literal (h : ofValue v = .ok m) (hm : m.form.literals ≠ []) :
    ∃ j w, v.entry 1 0 ⟨"value", .literal⟩ = some (j, w) ∧ m.form.literals = [w.canonical] := by
  obtain ⟨f⟩ := m
  obtain ⟨k, r, rfl, -, -, hr⟩ := ofValue_eq_ok.mp h
  cases k
  case stringLit | numberLit | booleanLit =>
    obtain ⟨x, rest⟩ := r
    obtain ⟨hx, -⟩ := hr
    cases hentry : v.entry 1 0 ⟨"value", .literal⟩ with
    | none =>
      rw [hentry] at hx
      cases hx
    | some e =>
      rw [hentry] at hx
      exact ⟨e.1, e.2, rfl, congrArg (fun u => [u]) hx⟩
  all_goals exact absurd rfl hm

/-- The value of a literal in a program: a string literal stands in quotes. -/
def literalText (k : Kind) (s : String) : String :=
  if k = .stringLit then "\"" ++ s ++ "\"" else s

theorem render_literal {u : Value} (h : m.form.literals = [u]) : m.render = literalText m.kind u.raw := by
  obtain ⟨f⟩ := m
  cases f
  case stringLit | numberLit | booleanLit =>
    cases h
    rfl
  all_goals cases h

theorem toValue_literal {u : Value} (h : m.form.literals = [u]) :
    m.toValue = .obj [("type", .str m.kind.name), ("value", u)] := by
  obtain ⟨f⟩ := m
  cases f
  case stringLit | numberLit | booleanLit =>
    cases h
    rfl
  all_goals cases h

end

variable {source : String} {tree m : Node} {p : Position}

theorem exists_written (h : tree.Everywhere fun k => k.form.Sound) (hm : tree.at? p = some m) :
    ∃ ρ, ReadFrom tree.toValue p ρ ∧ tree.toValue.at? ρ = some m.toValue := by
  induction p generalizing tree with
  | nil =>
    cases hm
    exact ⟨[], .root _, rfl⟩
  | cons i p ih =>
    obtain ⟨f⟩ := tree
    obtain ⟨c, hc, hm⟩ := Option.bind_eq_some_iff.mp hm
    obtain ⟨hf, hchildren⟩ := everywhere_mk.mp h
    have hwrite : Form.Means (fun _ w c => w = toValue c ∧ ofValue w = .ok c) (mk f).toValue f := by
      rw [toValue_mk]
      exact Form.means_write hf fun c hc _ => ⟨rfl, ofValue_toValue (hchildren c hc)⟩
    obtain ⟨g, rfl, hlayer⟩ := hwrite.label
    rw [children, form, Form.children_map, List.getElem?_map] at hc
    obtain ⟨⟨π, c⟩, hq, rfl⟩ := Option.map_eq_some_iff.mp hc
    obtain ⟨j, σ, w, rfl, -, hw, ⟨rfl, -⟩, -⟩ := hlayer.exchange hq
    have hmem : c ∈ (g.map Prod.snd).children := by
      rw [Form.children_map]
      exact List.mem_map_of_mem (List.mem_of_getElem? hq)
    obtain ⟨ρ, hread, hat⟩ := ih (hchildren c hmem) hm
    refine ⟨j :: σ ++ ρ, .child (hlayer.mono fun _ _ _ _ _ hq => ⟨hq.1, hq.2.2⟩) hq hw hread, ?_⟩
    rw [Value.at?_append, hw, Option.bind_some, hat]

theorem exists_literalSpot (h : parse source = .ok tree) (hm : tree.at? p = some m) (hlit : m.form.literals ≠ []) :
    Nonempty (LiteralSpot source p) := by
  obtain ⟨spot⟩ := exists_spot h hm
  obtain ⟨m', hm', hread, -⟩ := spot.exchange h
  cases hm.symm.trans hm'
  obtain ⟨j, w, hentry, -⟩ := ofValue_literal hread hlit
  have hplace : spot.value.LiteralAt p (spot.pointer ++ [j]) w :=
    ⟨spot.pointer, spot.part, j, spot.readFrom, spot.at_pointer, hentry, rfl⟩
  obtain ⟨before, text, after, hs, htext, hframe⟩ := Value.exists_document_frame spot.document hplace.at?
  exact ⟨⟨spot.value, _, w, before, text, after, hs, spot.document, hplace, htext, hframe⟩⟩

end Node

theorem LiteralSpot.literals_eq {source : String} {tree m : Node} {p : Position} (spot : LiteralSpot source p)
    (h : Node.parse source = .ok tree) (hm : tree.at? p = some m) (hlit : m.form.literals ≠ []) :
    m.form.literals = [spot.literal.canonical] := by
  obtain ⟨v, hdoc, -, -, hv⟩ := Node.parse_eq_ok_iff.mp h
  cases document_unique hdoc spot.document
  obtain ⟨ρ, part, j, hread, hpart, hentry, -⟩ := spot.place
  obtain ⟨w, m', hw, hm', hwm, -⟩ := hread.exchange hv
  cases hm.symm.trans hm'
  cases hpart.symm.trans hw
  obtain ⟨j', w', hentry', hliterals⟩ := Node.ofValue_literal hwm hlit
  cases hentry.symm.trans hentry'
  exact hliterals

/-! ## Integers and strings -/

theorem Json.Number.text_int (z : Int) : (Number.int z).text = (toString z).toList := by
  cases z with
  | ofNat n =>
    have h : ¬ Int.ofNat n < 0 := Int.not_lt.mpr (Int.natCast_nonneg n)
    have htext : toString (Int.ofNat n) = n.repr := rfl
    rw [Number.text, if_neg h, htext]
    simp
  | negSucc n =>
    have htext : toString (Int.negSucc n) = "-" ++ (n + 1).repr := rfl
    rw [Number.text, if_pos (Int.negSucc_lt_zero n), htext]
    simp

namespace Node

/-- The text is that of a node of the tree in the program. -/
def RendersAs (tree m : Node) (p : Position) (text : String) : Prop :=
  m.render = text ∧ tree.render = tree.before p ++ (text ++ tree.after p)

/-- In all styles, the text is that of the value of a literal where the tree is written. -/
def WritesAs (tree : Node) (p : Position) (text : String) : Prop :=
  ∀ style : Style, ∃ π w before after, tree.toValue.LiteralAt p π w ∧
    tree.toValue.PrintFrame style 0 π before after ∧ tree.toValue.print style 0 = before ++ (text.toList ++ after)

variable {source : String} {tree m : Node} {p : Position}

theorem rendersAs_literal {u : Value} {text : String} (hm : tree.at? p = some m) (hu : m.form.literals = [u])
    (htext : u.raw = text) : tree.RendersAs m p (literalText m.kind text) := by
  rw [← htext, ← render_literal hu]
  exact ⟨rfl, render_at hm⟩

theorem writesAs_literal {u : Value} {text : String} (h : tree.Everywhere fun k => k.form.Sound)
    (hm : tree.at? p = some m) (hu : m.form.literals = [u])
    (htext : ∀ (style : Style) (level : Nat), u.print style level = text.toList) : tree.WritesAs p text := by
  intro style
  obtain ⟨ρ, hread, hat⟩ := exists_written h hm
  have hentry : m.toValue.entry 1 0 ⟨"value", .literal⟩ = some (1, u) := by
    rw [toValue_literal hu]
    rfl
  have hplace : tree.toValue.LiteralAt p (ρ ++ [1]) u := ⟨ρ, m.toValue, 1, hread, hat, hentry, rfl⟩
  obtain ⟨before, after, hframe⟩ := Value.exists_printFrame style hplace.at? 0
  refine ⟨_, u, before, after, hplace, hframe, ?_⟩
  have hprint := hframe u
  rwa [Value.replace_self hplace.at?, htext] at hprint

/-- The value of a literal has a text of its own in the source of a tree. The decimal text of an integer is the
text of the literal in the program, and that of its value in every text of the tree. A string is in the program as
it is, in whatever way its characters are escaped in the source. -/
theorem literal_verbatim (h : parse source = .ok tree) (hm : tree.at? p = some m) (hlit : m.form.literals ≠ []) :
    Nonempty (LiteralSpot source p) ∧ ∀ spot : LiteralSpot source p,
      (∀ z : Int, -0x8000000000000000 ≤ z → z < 0x10000000000000000 → spot.text = toString z →
        tree.RendersAs m p (literalText m.kind (toString z)) ∧ tree.WritesAs p (toString z)) ∧
      ∀ s : String, SpellsString s spot.text.toList → tree.RendersAs m p (literalText m.kind s) := by
  refine ⟨exists_literalSpot h hm hlit, fun spot => ?_⟩
  have hliterals := spot.literals_eq h hm hlit
  refine ⟨fun z hlow hhigh htext => ?_, fun s hs => ?_⟩
  · have hspells : (Value.num (.int z)).Spells spot.text.toList := by
      rw [htext, ← Number.text_int]
      exact spellsNumber_text ⟨hlow, hhigh⟩
    rw [document_unique spot.spells.document hspells.document] at hliterals
    obtain ⟨v, -, -, -, hv⟩ := parse_eq_ok_iff.mp h
    constructor
    · have hraw : (Value.num (.int z)).canonical.raw = toString z := by
        apply String.toList_inj.mp
        rw [← Number.text_int]
        exact String.toList_ofList
      exact rendersAs_literal hm hliterals hraw
    · exact writesAs_literal (sound_of_ofValue hv) hm hliterals fun _ _ => Number.text_int z
  · have hspells : (Value.str s).Spells spot.text.toList := hs
    rw [document_unique spot.spells.document hspells.document] at hliterals
    exact rendersAs_literal hm hliterals rfl

/-! A literal that is returned, for which the spot is known. -/

def literalValue (k : Kind) (literal : Value) : Value :=
  .obj [("type", .str k.name), ("value", literal)]

def returnedText (k : Kind) (text : String) : String :=
  nodeText "ReturnStatement" "value" (nodeText k.name "value" text)

theorem returnedText_eq (k : Kind) (text : String) :
    returnedText k text = nodeStart "ReturnStatement" "value" ++ nodeStart k.name "value" ++
      (text ++ ("\x7d" ++ "\x7d")) := by
  simp only [returnedText, nodeText_eq, String.append_assoc]

def returnedSpot (k : Kind) (text : String) (literal : Value) (hspells : literal.Spells text.toList)
    (hread : ∃ c, ofValue (literalValue k literal) = .ok c) : LiteralSpot (returnedText k text) [0] where
  value := .obj [("type", .str "ReturnStatement"), ("value", literalValue k literal)]
  pointer := [1, 1]
  literal := literal
  before := nodeStart "ReturnStatement" "value" ++ nodeStart k.name "value"
  text := text
  after := "\x7d" ++ "\x7d"
  source_eq := returnedText_eq k text
  document :=
    document_nodeText (by decide) (by decide) (document_nodeText k.verbatim_name (by decide) hspells.document)
  place := by
    obtain ⟨c, hc⟩ := hread
    have hlayer : Form.Means (Labelled Read)
        (.obj [("type", .str "ReturnStatement"), ("value", literalValue k literal)]) (.returning ([1], c)) := by
      refine ⟨.returning, (([1], c), ()), rfl, Value.tells_iff.mpr ⟨_, rfl, Kind.returning.told_name⟩, ?_, ?_⟩
      · intro f hf
        cases List.mem_singleton.mp hf
        exact Nat.le_refl 1
      · exact ⟨⟨rfl, hc⟩, trivial⟩
    have hfrom : ReadFrom _ [0] ([1] ++ []) := .child hlayer rfl rfl (.root (literalValue k literal))
    exact ⟨[1], literalValue k literal, 1, hfrom, rfl, rfl, rfl⟩
  spells := hspells
  frame := by
    intro u x hu
    rw [← String.toList_ofList (l := x)] at hu ⊢
    have hinner : (literalValue k u).Document (nodeText k.name "value" (String.ofList x)).toList :=
      document_nodeText k.verbatim_name (by decide) hu
    have hdoc : (Value.obj [("type", .str "ReturnStatement"), ("value", literalValue k u)]).Document
        (returnedText k (String.ofList x)).toList :=
      document_nodeText (by decide) (by decide) hinner
    simp only [returnedText_eq, String.toList_append, List.append_assoc] at hdoc ⊢
    exact hdoc

def leastNumber : Node :=
  mk (.numberLit (.num (.int (-0x8000000000000000))))

def brokenString : Node :=
  mk (.stringLit (.str "A\n"))

theorem literal_verbatim_returned :
    (mk (.returning leastNumber)).RendersAs leastNumber [0] "-9223372036854775808" ∧
      (mk (.returning leastNumber)).WritesAs [0] "-9223372036854775808" ∧
      (mk (.returning brokenString)).RendersAs brokenString [0] "\"A\n\"" := by
  have hleast : parse (returnedText .numberLit "-9223372036854775808") = .ok (mk (.returning leastNumber)) := by
    decide +kernel
  have hbroken : parse (returnedText .stringLit "\"\\u0041\\n\"") = .ok (mk (.returning brokenString)) := by
    decide +kernel
  have hfits : (Number.int (-0x8000000000000000)).Fits := ⟨by decide, by decide⟩
  have htext : toString (-0x8000000000000000 : Int) = "-9223372036854775808" := by decide +kernel
  have hdigits := spellsNumber_text hfits
  rw [Number.text_int, htext] at hdigits
  have hletter : SpellsChar 'A' ['\\', 'u', '0', '0', '4', '1'] := .unit (n := 0x41) (by decide) rfl rfl
  have hbreak : SpellsChar '\n' ['\\', 'n'] := .letter rfl
  have hspelled : SpellsString "A\n" "\"\\u0041\\n\"".toList := ⟨_, .cons hletter (.cons hbreak .nil), by decide⟩
  obtain ⟨-, hnumber⟩ := literal_verbatim (p := [0]) hleast rfl (List.cons_ne_nil _ _)
  obtain ⟨-, hstring⟩ := literal_verbatim (p := [0]) hbroken rfl (List.cons_ne_nil _ _)
  let number := returnedSpot .numberLit _ (.num (.int (-0x8000000000000000))) hdigits ⟨_, rfl⟩
  have hverbatim := (hnumber number).1 (-0x8000000000000000) (by decide) (by decide) htext.symm
  rw [htext] at hverbatim
  obtain ⟨hrenders, hwrites⟩ := hverbatim
  exact ⟨hrenders, hwrites, (hstring (returnedSpot .stringLit _ (.str "A\n") hspelled ⟨_, rfl⟩)).2 _ hspelled⟩

end Node

end SharpTree
