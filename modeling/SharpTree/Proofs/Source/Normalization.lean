import SharpTree.Proofs.Json.Grammar
import SharpTree.Proofs.Node.Depth
import SharpTree.Proofs.Source.Tags

/-!
# Trees are not written deeper than they were read

A tree is written with the tags and the lists that the text it was read from may
have left out. Still it is not written deeper than that text (`printed_no_deeper`),
so every tree that was read can be read again from the texts that it is written as.
-/

namespace SharpTree

open Json (Value)

namespace Json.Grammar

/-- A text that is JSON, with brackets inside each other to just this depth. -/
def Nests (d : Nat) (text : List Char) : Prop :=
  ∀ e, Document e text ↔ d ≤ e

theorem nests_of_document {v : Json.Value} {text : List Char} (h : v.Document text) : Nests v.nesting text := by
  intro e
  rw [document_iff]
  constructor
  · intro hd
    obtain ⟨u, hu, hd⟩ := hd
    rw [Source.document_unique h hu]
    exact hd
  · intro hd
    exact ⟨v, h, hd⟩

theorem Nests.unique {d e : Nat} {text : List Char} (hd : Nests d text) (he : Nests e text) : d = e :=
  Nat.le_antisymm ((hd e).mp ((he e).mpr (Nat.le_refl e))) ((he d).mp ((hd d).mpr (Nat.le_refl d)))

end Json.Grammar

open Json.Grammar (Nests nests_of_document)

namespace Node

/-- No tree that was read holds a number that could not be written. -/
theorem storable_of_parse {source : String} {n : Node} (h : parse source = .ok n) :
    n.Everywhere fun m => ∀ x ∈ m.form.numbers, x.Storable := by
  obtain ⟨v, hdoc, -, -, hv⟩ := parse_eq_ok_iff.mp h
  intro p m hm x hx
  exact Value.storable_numbers hdoc x (numbers_of_ofValue hv p m hm x hx)

/-- The texts of a tree nest no deeper than the text that it was read from, and are read. -/
theorem printed_no_deeper {source text : String} {n : Node} (h : parse source = .ok n)
    (ht : text = n.toValue.compact ∨ text = n.toValue.pretty) :
    ∃ d e, Nests d source.toList ∧ Nests e text.toList ∧ e ≤ d ∧ ∃ m, parse text = .ok m := by
  obtain ⟨v, hsource, hdeep, -, hv⟩ := parse_eq_ok_iff.mp h
  obtain ⟨g, hcompact, hpretty⟩ := exists_document (storable_of_parse h)
  have htext : (n.toValue.mapNumbers g).Document text.toList := by
    obtain rfl | rfl := ht
    · exact hcompact
    · exact hpretty
  have hle : n.toValue.nesting ≤ v.nesting := nesting_toValue hv
  refine ⟨v.nesting, (n.toValue.mapNumbers g).nesting, nests_of_document hsource, nests_of_document htext, ?_, ?_⟩
  · rw [Value.nesting_mapNumbers]
    exact hle
  · obtain ⟨-, hread⟩ | ⟨hlimit, -⟩ := parse_document_mapNumbers htext
    · exact hread
    · omega

def bareCall : Nat → Value
  | 0 => .obj [("type", .str "Call"), ("callee", .obj [("type", .str "Identifier"), ("value", .str "f")])]
  | d + 1 => .obj [("type", .str "ReturnStatement"), ("value", bareCall d)]

theorem ofValue_bareCall (d : Nat) :
    ofValue (bareCall d) = .ok (nestedReturns (mk (.call (mk (.identifier "f")) [])) d) := by
  induction d with
  | zero => rfl
  | succ d ih =>
    refine (ofValue_sole (r := (_, ())) _ _ (Kind.told_name .returning) (by decide)).mpr ?_
    simp only [Record.Stands, Field.Stands, if_true, and_true]
    exact ih

theorem document_bareCall (d : Nat) : (bareCall d).Document (bareCall d).compact.toList := by
  apply Value.document_numberless
  induction d with
  | zero => rfl
  | succ d ih => simp [bareCall, Value.numbers, Value.numbersMembers, ih]

theorem nesting_bareCall (d : Nat) : (bareCall d).nesting = d + 2 := by
  induction d with
  | zero => rfl
  | succ d ih => simp [bareCall, Value.nesting, Value.nestingMembers, ih]

/-- The list of arguments stands on the deepest level that there is room for. -/
theorem printed_no_deeper_call : Nests 127 (bareCall 125).compact.toList ∧
    ∃ n, parse (bareCall 125).compact = .ok n ∧ (∃ e ≤ 127, Nests e n.toValue.pretty.toList) ∧
      ∃ m, parse n.toValue.pretty = .ok m := by
  have hnests := nests_of_document (document_bareCall 125)
  rw [nesting_bareCall] at hnests
  have hparse : parse (bareCall 125).compact = .ok (nestedReturns (mk (.call (mk (.identifier "f")) [])) 125) := by
    rw [parse_eq_ok_of_document (document_bareCall 125), nesting_bareCall]
    exact ⟨by decide, ⟨"ReturnStatement", rfl⟩, ofValue_bareCall 125⟩
  obtain ⟨d, e, hd, he, hle, hread⟩ := printed_no_deeper hparse (.inr rfl)
  rw [hd.unique hnests] at hle
  exact ⟨hnests, _, hparse, ⟨e, hle, he⟩, hread⟩

end Node

end SharpTree
