import SharpTree.Proofs.Node.RoundTrip

/-!
# The place of a node in a text

If a text is read as a tree, the value of each node of the tree has its own text
inside, at a spot of the whole. The text of another node may be written there:
then the whole is read as the tree with that node instead, as long as it is not
nested too deep (`Spot.parse_exchange`).
-/

namespace SharpTree

open Json (Value Pointer)
open Json.Value (Spells Document Tagged)
open Source (document_unique)

/-- A text that holds a value which is not nested too deep for a tree. -/
def Shallow (text : String) : Prop :=
  ∃ v : Value, v.Document text.toList ∧ v.nesting < maxNesting

theorem Shallow.nesting_lt {text : String} (h : Shallow text) {v : Value} (hv : v.Document text.toList) :
    v.nesting < maxNesting := by
  obtain ⟨w, hw, hnest⟩ := h
  cases document_unique hw hv
  exact hnest

/-- Where the text has the value that the node at a position is read from. -/
structure Spot (source : String) (p : Position) where
  value : Value
  pointer : Pointer
  part : Value
  before : String
  text : String
  after : String
  source_eq : source = before ++ (text ++ after)
  document : value.Document source.toList
  readFrom : Node.ReadFrom value p pointer
  at_pointer : value.at? pointer = some part
  spells : part.Spells text.toList
  frame : value.Frame pointer before.toList after.toList

theorem Json.Value.Tagged.setChild {v : Value} {j : Nat} (h : v.Tagged) (hj : v.FieldAt j) (u : Value) :
    (v.setChild j u).Tagged := by
  obtain ⟨i, f, w, hf, he⟩ := hj
  cases v with
  | obj ms =>
    have hm : ms[j]? = some (f.name, w) := mem_indexed.mp (List.mem_of_mem_head? he)
    obtain ⟨s, hs⟩ := h
    exact ⟨s, by rw [named_modify hm hf, hs]⟩
  | arr vs =>
    obtain ⟨a, -, e⟩ := Option.map_eq_some_iff.mp he
    cases e
    obtain ⟨s, rest, rfl⟩ := h
    exact ⟨s, rest.set i u, rfl⟩
  | _ => cases h

theorem Node.ReadFrom.tagged_replace {v u : Value} {p : Position} {π : Pointer} (h : ReadFrom v p π) (hv : v.Tagged)
    (hu : π = [] → u.Tagged) : (v.replace π u).Tagged := by
  rcases h.field with ⟨-, rfl⟩ | ⟨j, ρ, rfl, hj⟩
  · exact hu rfl
  · unfold Value.replace
    split
    · exact hv.setChild hj _
    · exact hv

theorem Json.Value.exists_document_frame {v c : Value} {source : String} {π : Pointer}
    (h : v.Document source.toList) (hc : v.at? π = some c) :
    ∃ before text after : String, source = before ++ (text ++ after) ∧ c.Spells text.toList ∧
      v.Frame π before.toList after.toList := by
  obtain ⟨b₁, w, b₂, hb₁, hw, hb₂, hs⟩ := h
  obtain ⟨before, x, after, hx, rfl, hframe⟩ := exists_frame hw hc
  refine ⟨.ofList (b₁ ++ before), .ofList x, .ofList (after ++ b₂), ?_, ?_, ?_⟩
  · apply String.toList_inj.mp
    rw [hs]
    simp
  · rw [String.toList_ofList]
    exact hx
  · intro u y hy
    have := Document.append hb₁ (hframe hy) hb₂
    rw [String.toList_ofList, String.toList_ofList]
    simpa using this

namespace Node

theorem exists_spot {source : String} {t m : Node} {p : Position} (h : parse source = .ok t)
    (hm : t.at? p = some m) : Nonempty (Spot source p) := by
  obtain ⟨v, hdoc, -, -, hv⟩ := parse_eq_ok_iff.mp h
  obtain ⟨π, hπ⟩ := exists_readFrom hv hm
  obtain ⟨c, -, hc, -⟩ := hπ.exchange hv
  obtain ⟨before, text, after, hs, htext, hframe⟩ := Value.exists_document_frame hdoc hc
  exact ⟨⟨v, π, c, before, text, after, hs, hdoc, hπ, hc, htext, hframe⟩⟩

end Node

namespace Spot

variable {source : String} {t : Node} {p : Position}

theorem tagged_reads (spot : Spot source p) (h : Node.parse source = .ok t) :
    spot.value.Tagged ∧ Node.ofValue spot.value = .ok t ∧ spot.value.nesting < maxNesting := by
  obtain ⟨v, hdoc, hn, htag, hv⟩ := Node.parse_eq_ok_iff.mp h
  cases document_unique hdoc spot.document
  exact ⟨htag, hv, hn⟩

theorem exchange (spot : Spot source p) (h : Node.parse source = .ok t) :
    ∃ m, t.at? p = some m ∧ Node.ofValue spot.part = .ok m ∧ ∀ u k, Node.ofValue u = .ok k →
      Node.ofValue (spot.value.replace spot.pointer u) = .ok (t.replace p k) := by
  obtain ⟨w, m, hw, hm, hread, hexchange⟩ := spot.readFrom.exchange (spot.tagged_reads h).2.1
  cases hw.symm.trans spot.at_pointer
  exact ⟨m, hm, hread, hexchange⟩

theorem document_replace (spot : Spot source p) {u : Value} {y : String} (hu : u.Document y.toList) :
    (spot.value.replace spot.pointer u).Document (spot.before ++ (y ++ spot.after)).toList := by
  rw [String.toList_append, String.toList_append]
  exact spot.frame hu

/-- A value that is read as a node may be written for another node. At the root it needs a name for its tag. -/
theorem parse_put (spot : Spot source p) (h : Node.parse source = .ok t) {u : Value} {y : String} {n : Node}
    (hu : u.Document y.toList) (htag : spot.pointer = [] → u.Tagged) (hn : Node.ofValue u = .ok n)
    (hs : Shallow (spot.before ++ (y ++ spot.after))) :
    Node.parse (spot.before ++ (y ++ spot.after)) = .ok (t.replace p n) := by
  obtain ⟨-, -, -, hexchange⟩ := spot.exchange h
  have hdoc := spot.document_replace hu
  exact Node.parse_eq_ok_iff.mpr ⟨_, hdoc, hs.nesting_lt hdoc,
    spot.readFrom.tagged_replace (spot.tagged_reads h).1 htag, hexchange u n hn⟩

theorem parse_exchange (spot : Spot source p) (h : Node.parse source = .ok t) {y : String} {n : Node}
    (hn : Node.parse y = .ok n) (hs : Shallow (spot.before ++ (y ++ spot.after))) :
    Node.parse (spot.before ++ (y ++ spot.after)) = .ok (t.replace p n) := by
  obtain ⟨u, hu, -, hutag, hun⟩ := Node.parse_eq_ok_iff.mp hn
  exact spot.parse_put h hu (fun _ => hutag) hun hs

/-- What nests no deeper than the value that it is written for may always be written there. -/
theorem shallow (spot : Spot source p) (h : Node.parse source = .ok t) {u : Value} {y : String}
    (hu : u.Document y.toList) (hle : u.nesting ≤ spot.part.nesting) : Shallow (spot.before ++ (y ++ spot.after)) :=
  ⟨_, spot.document_replace hu,
    Nat.lt_of_le_of_lt (Value.nesting_replace_le spot.at_pointer hle) (spot.tagged_reads h).2.2⟩

end Spot

namespace Node

/-- The outermost node of a text is read on its own, and the nodes inside it are read from the value of
the whole, but they mean the same: a text that is read as a tree may be written for any node, and is read
as that tree there. -/
theorem subtree_anywhere {source : String} {t m : Node} {p : Position} (h : parse source = .ok t)
    (hm : t.at? p = some m) :
    Nonempty (Spot source p) ∧ ∀ spot : Spot source p, ofValue spot.part = .ok m ∧
      ∀ (text : String) (n : Node), parse text = .ok n → Shallow (spot.before ++ (text ++ spot.after)) →
        parse (spot.before ++ (text ++ spot.after)) = .ok (t.replace p n) := by
  refine ⟨exists_spot h hm, fun spot => ⟨?_, ?_⟩⟩
  · obtain ⟨m', hm', hread, -⟩ := spot.exchange h
    cases hm.symm.trans hm'
    exact hread
  · intro text n hn hs
    exact spot.parse_exchange h hn hs

theorem subtree_anywhere_returned :
    Nonempty (Spot
      "\x7b\"value\":\x7b\"type\":\"Identifier\",\"value\":\"a\"\x7d,\"type\":\"ReturnStatement\"\x7d" [0]) ∧
    ∀ spot : Spot
        "\x7b\"value\":\x7b\"type\":\"Identifier\",\"value\":\"a\"\x7d,\"type\":\"ReturnStatement\"\x7d" [0],
      parse (spot.before ++ (" [\"Identifier\",\"b\"]\n" ++ spot.after)) =
        .ok (mk (.returning (mk (.identifier "b")))) := by
  have h : parse "\x7b\"value\":\x7b\"type\":\"Identifier\",\"value\":\"a\"\x7d,\"type\":\"ReturnStatement\"\x7d" =
      .ok (mk (.returning (mk (.identifier "a")))) := by
    decide +kernel
  have hb : parse " [\"Identifier\",\"b\"]\n" = .ok (mk (.identifier "b")) := by
    decide +kernel
  have hdoc : (Value.arr [.str "Identifier", .str "b"]).Document " [\"Identifier\",\"b\"]\n".toList := by
    have hprint := Value.document_print Json.blank_compact (v := .arr [.str "Identifier", .str "b"])
      (by simp [Value.numbers, Value.numbersItems])
    exact Value.Document.append (show Json.Blanks [' '] by decide) hprint (show Json.Blanks ['\n'] by decide)
  have hm : at? (mk (.returning (mk (.identifier "a")))) [0] = some (mk (.identifier "a")) := rfl
  obtain ⟨hspot, hall⟩ := subtree_anywhere h hm
  refine ⟨hspot, ?_⟩
  intro spot
  obtain ⟨hread, hparse⟩ := hall spot
  -- the new text has one bracket, and the value of a node has one at least
  have hle : (Value.arr [.str "Identifier", .str "b"]).nesting ≤ spot.part.nesting := nesting_pos hread
  exact hparse _ _ hb (spot.shallow h hdoc hle)

end Node

end SharpTree
