import SharpTree.Proofs.Json.Printing
import SharpTree.Proofs.Node.Substitution
import SharpTree.Proofs.Node.Writing
import SharpTree.Proofs.Source.Tree

/-!
# Reading back what was written

The tree of a text is written as a text of the same tree, with and without white
space. Two things have to be seen besides that the written value stands for the
tree: its numbers can be spelled, and it nests no deeper than the text that the
tree came from, although fields that were left out may be written.
-/

namespace SharpTree

open Json (Value Pointer Number Style SpellsNumber spellsNumber_text blank_compact blank_indented)

variable {ν : Type}

/-! ## Numbers -/

def Form.numbers : Form ν → List Number
  | stringLit v | numberLit v | booleanLit v => v.numbers
  | _ => []

def Shape.numbersIn : (s : Shape) → s.Carrier ν → List Number
  | literal, v => v.numbers
  | _, _ => []

theorem Form.numbers_ofRecord (k : Kind) (r : Record ν k.fields) :
    (Form.ofRecord k r).numbers = Record.gather Shape.numbersIn k.fields r := by
  cases k <;> simp [Form.ofRecord, Form.numbers, Record.gather, Record.entries, Shape.numbersIn]

section

variable {g : ν → Value} {y : Number}

theorem Shape.numbers_write {s : Shape} {x : s.Carrier ν} {u : Value} (hu : s.write (s.map g x) = some u)
    (hy : y ∈ u.numbers) : y ∈ s.numbersIn x ∨ ∃ c ∈ s.nodesIn x, y ∈ (g c).numbers := by
  have hlist {xs : List ν} (h : y ∈ Value.numbersItems (xs.map g)) : ∃ c ∈ xs, y ∈ (g c).numbers := by
    simpa [Value.mem_numbersItems] using h
  cases s with
  | node =>
    cases hu
    exact .inr ⟨x, List.mem_cons_self, hy⟩
  | optionalNode =>
    obtain ⟨c, rfl, rfl⟩ := Option.map_eq_some_iff.mp hu
    exact .inr ⟨c, List.mem_cons_self, hy⟩
  | nodes =>
    cases hu
    exact .inr (hlist hy)
  | optionalNodes =>
    cases hu
    exact .inr (hlist hy)
  | declarator =>
    obtain ⟨t, n, o⟩ := x
    cases hu
    right
    simpa [Value.numbers, Value.mem_numbersMembers, map, Declarator.members, Declarator.map, nodesIn,
      Declarator.children] using hy
  | accessors =>
    cases hu
    obtain ⟨m, hm, hy⟩ := Value.mem_numbersMembers.mp hy
    obtain ⟨_, hb, rfl⟩ := List.mem_map.mp hm
    obtain ⟨b, hbx, rfl⟩ := List.mem_map.mp hb
    exact .inr ⟨b.2, List.mem_map_of_mem hbx, hy⟩
  | modifiers =>
    obtain ⟨ms, rfl, rfl⟩ := Option.map_eq_some_iff.mp hu
    simp [Value.numbers, Value.mem_numbersItems] at hy
  | literal =>
    cases hu
    exact .inl hy
  | _ =>
    cases hu
    cases hy

theorem Form.numbers_write {f : Form ν} (hy : y ∈ (f.map g).write.numbers) :
    y ∈ f.numbers ∨ ∃ c ∈ f.children, y ∈ (g c).numbers := by
  obtain ⟨k, r, rfl⟩ := f.exists_record
  rw [Form.map_ofRecord, Form.write_ofRecord] at hy
  obtain ⟨m, hm, hy⟩ := Value.mem_numbersMembers.mp hy
  rcases List.mem_cons.mp hm with rfl | hm
  · cases hy
  · obtain ⟨_, hw, -, hu⟩ := Record.exists_of_mem_members hm
    rw [Record.entries_map] at hw
    obtain ⟨e, he, rfl⟩ := List.mem_map.mp hw
    rcases Shape.numbers_write hu hy with h | ⟨c, hc, h⟩
    · exact .inl (Form.numbers_ofRecord k r ▸ List.mem_flatMap.mpr ⟨e, he, h⟩)
    · exact .inr ⟨c, Form.mem_children_ofRecord.mpr (List.mem_flatMap.mpr ⟨e, he, hc⟩), h⟩

end

section

variable {N : Pointer → Value → ν → Prop} {y : Number}

theorem Shape.Means.numbers {s : Shape} {π : Pointer} {v : Value} {x : s.Carrier ν} (h : s.Means N π v x)
    (hy : y ∈ s.numbersIn x) : y ∈ v.numbers := by
  cases s with
  | literal =>
    cases h
    exact Value.numbers_canonical v hy
  | _ => cases hy

theorem Shape.numbersIn_absent? {s : Shape} {x : s.Carrier ν} (h : s.absent? ν = some x) : s.numbersIn x = [] := by
  cases s <;> cases h <;> rfl

theorem Form.Means.numbers {v : Value} {f : Form ν} (h : Form.Means N v f) (hy : y ∈ f.numbers) :
    y ∈ v.numbers := by
  obtain ⟨k, r, rfl, -, hr⟩ := h
  rw [Form.numbers_ofRecord] at hy
  obtain ⟨e, he, hy⟩ := List.mem_flatMap.mp hy
  rcases hr.field he with h | ⟨j, w, hw, h⟩
  · rw [Shape.numbersIn_absent? h] at hy
    cases hy
  · exact Value.numbers_at? (by rw [Value.at?_singleton]; exact hw) (h.numbers hy)

end

/-! ## Nesting -/

section

variable {g : ν → Value} {leaf : (s : Shape) → Pointer → Value → s.Carrier ν → Prop} {π : Pointer} {offset : Nat}
  {v : Value} {fs : List Field} {r : Record ν fs}

/-- A list that may be left out stands beside a node that may not. -/
theorem Kind.exists_required (k : Kind) : (∃ f ∈ k.fields, f.shape = .optionalNodes ∨ f.shape = .accessors) →
    ∃ f ∈ k.fields, f.shape = .node ∨ f.shape = .declarator := by
  cases k <;> decide

theorem Shape.nesting_absent? {s : Shape} {x : s.Carrier ν} {u : Value} (h : s.absent? ν = some x)
    (hu : s.write (s.map g x) = some u) :
    u.nesting ≤ 1 ∧ (s ≠ .optionalNodes → s ≠ .accessors → u.nesting = 0) := by
  cases s with
  | optionalNodes =>
    cases h
    cases hu
    exact ⟨Nat.le_refl _, fun hs => absurd rfl hs⟩
  | accessors =>
    cases h
    cases hu
    exact ⟨Nat.le_refl _, fun _ hs => absurd rfl hs⟩
  | blockKind =>
    cases h
    cases hu
    exact ⟨Nat.zero_le _, fun _ _ => rfl⟩
  | _ => cases h <;> cases hu

theorem Record.Of.nesting_members (hr : Record.Of leaf π offset v fs r) (hv : 0 < v.nesting)
    (hl : ∀ (f : Field) (x : f.shape.Carrier ν) (ρ : Pointer) (w u : Value), f ∈ fs → leaf f.shape ρ w x →
      f.shape.write (f.shape.map g x) = some u → u.nesting ≤ w.nesting)
    (ha : ∀ f ∈ fs, f.shape = .optionalNodes ∨ f.shape = .accessors → 1 < v.nesting) (t : Value)
    (ht : t.nesting = 0) :
    (Value.obj (("type", t) :: Record.members fs (Record.map g fs r))).nesting ≤ v.nesting := by
  have hm : ∀ m ∈ Record.members fs (Record.map g fs r), m.2.nesting < v.nesting := by
    intro m hm
    obtain ⟨_, hw, -, hu⟩ := Record.exists_of_mem_members hm
    rw [Record.entries_map] at hw
    obtain ⟨e, he, rfl⟩ := List.mem_map.mp hw
    rcases hr.field he with h | ⟨j, w, hw, h⟩
    · obtain ⟨hle, hz⟩ := Shape.nesting_absent? h hu
      by_cases hf : e.1.shape = .optionalNodes ∨ e.1.shape = .accessors
      · exact Nat.lt_of_le_of_lt hle (ha e.1 (Record.mem_of_entries he) hf)
      · rw [not_or] at hf
        rw [hz hf.1 hf.2]
        exact hv
    · exact Nat.lt_of_le_of_lt (hl e.1 e.2 _ w _ (Record.mem_of_entries he) h hu) (Value.nesting_child? hw)
  have hle : Value.nestingMembers (Record.members fs (Record.map g fs r)) ≤ v.nesting - 1 :=
    Value.nestingMembers_le.mpr fun m h => Nat.le_sub_one_of_lt (hm m h)
  simp only [Value.nesting, Value.nestingMembers, ht]
  omega

theorem Record.Of.nesting_pos (hr : Record.Of leaf π offset v fs r) : 0 < v.nesting := by
  cases v <;> first | exact Nat.succ_pos _ | exact hr.1.elim

end

section

variable {N : Pointer → Value → ν → Prop} {g : ν → Value} (hN : ∀ π w c, N π w c → (g c).nesting ≤ w.nesting)

include hN

theorem Shape.Plain.nesting_write {s : Shape} {π : Pointer} {v u : Value} {x : s.Carrier ν} (h : s.Plain N π v x)
    (hu : s.write (s.map g x) = some u) : u.nesting ≤ v.nesting := by
  have hlist {vs : List Value} {xs : List ν} (e : Each (fun i => N (π ++ [i])) vs xs) :
      (Value.arr (xs.map g)).nesting ≤ (Value.arr vs).nesting := by
    refine Nat.succ_le_succ (Value.nestingItems_le.mpr fun w hw => ?_)
    obtain ⟨c, hc, rfl⟩ := List.mem_map.mp hw
    obtain ⟨i, w, hw, hc⟩ := e.exists_right hc
    exact Nat.le_trans (hN _ _ _ hc) (Value.nestingItems_le.mp (Nat.le_refl _) w (List.mem_of_getElem? hw))
  cases s with
  | node =>
    cases hu
    exact hN π v x h
  | optionalNode =>
    obtain ⟨c, rfl, rfl⟩ := Option.map_eq_some_iff.mp hu
    obtain ⟨-, h⟩ | ⟨_, h, e⟩ := h
    · cases h
    · cases e
      exact hN π v c h
  | nodes =>
    obtain ⟨vs, rfl, e⟩ := h
    cases hu
    exact hlist e
  | optionalNodes =>
    obtain ⟨vs, rfl, e⟩ := h
    cases hu
    exact hlist e
  | declarator => exact h.elim
  | accessors =>
    obtain ⟨ms, bs, rfl, e, rfl⟩ := h
    cases hu
    refine Nat.succ_le_succ (Value.nestingMembers_le.mpr fun m hm => ?_)
    obtain ⟨_, hb, rfl⟩ := List.mem_map.mp hm
    obtain ⟨b, hbs, rfl⟩ := List.mem_map.mp hb
    obtain ⟨i, m, hm, -, hb⟩ := e.exists_right (mem_of_mem_bindAll hbs)
    exact Nat.le_trans (hN _ _ _ hb) (Value.nestingMembers_le.mp (Nat.le_refl _) m (List.mem_of_getElem? hm))
  | modifiers =>
    obtain ⟨ms, rfl, rfl⟩ := Option.map_eq_some_iff.mp hu
    obtain ⟨-, h⟩ | ⟨tokens, rfl, -⟩ := h
    · cases h
    · refine Nat.succ_le_succ (Nat.le_trans (Value.nestingItems_le.mpr ?_) (Nat.zero_le _))
      simp [Value.nesting]
  | literal =>
    cases hu
    cases h
    exact v.nesting_canonical
  | _ =>
    cases hu
    exact Nat.zero_le _

theorem Shape.Means.nesting_write {s : Shape} {π : Pointer} {v u : Value} {x : s.Carrier ν} (h : s.Means N π v x)
    (hu : s.write (s.map g x) = some u) : u.nesting ≤ v.nesting := by
  by_cases hs : s = .declarator
  · subst hs
    have hr : Record.Of (Plain N) π 0 v Declarator.fields x.toRecord := h
    cases hu
    rw [Declarator.members_eq]
    have hno : ∀ f ∈ Declarator.fields, ¬ (f.shape = .optionalNodes ∨ f.shape = .accessors) := by decide
    exact hr.nesting_members hr.nesting_pos (fun f y ρ w u _ hy hu => hy.nesting_write hN hu)
      (fun f hf h => absurd h (hno f hf)) _ rfl
  · rw [Shape.means_eq_plain N hs] at h
    exact h.nesting_write hN hu

theorem Form.Means.nesting_write {v : Value} {f : Form ν} (h : Form.Means N v f)
    (hpos : ∀ π w c, N π w c → 0 < w.nesting) : (f.map g).write.nesting ≤ v.nesting := by
  obtain ⟨k, r, rfl, -, hr⟩ := h
  rw [Form.map_ofRecord, Form.write_ofRecord]
  refine hr.nesting_members hr.nesting_pos (fun f x ρ w u _ hx hu => hx.nesting_write hN hu)
    (fun f hf hs => ?_) _ rfl
  obtain ⟨f', hf', hs'⟩ := k.exists_required ⟨f, hf, hs⟩
  obtain ⟨x, hx⟩ := Record.exists_entry r hf'
  have hw : ∃ j w, v.child? j = some w ∧ 0 < w.nesting := by
    obtain ⟨name, shape⟩ := f'
    rcases hs' with rfl | rfl
    · rcases hr.field hx with h | ⟨j, w, hw, h⟩
      · cases h
      · exact ⟨j, w, hw, hpos _ w x h⟩
    · rcases hr.field hx with h | ⟨j, w, hw, h⟩
      · cases h
      · exact ⟨j, w, hw, Record.Of.nesting_pos h⟩
  obtain ⟨j, w, hw, hpos⟩ := hw
  exact Nat.lt_of_le_of_lt hpos (Value.nesting_child? hw)

end

/-! ## Trees -/

namespace Node

theorem toValue_mk (f : Form Node) : toValue (mk f) = (f.map toValue).write :=
  fold_mk Form.write f

theorem ofValue_toValue {n : Node} (h : n.Everywhere fun m => m.form.Sound) : ofValue n.toValue = .ok n := by
  induction n using induct with
  | step f ih =>
    obtain ⟨hf, hc⟩ := everywhere_mk.mp h
    rw [toValue_mk, ofValue_eq_ok]
    exact Form.means_write hf fun c hcf _ => ih c hcf (hc c hcf)

theorem numbers_toValue {P : Number → Prop} {n : Node} (h : n.Everywhere fun m => ∀ x ∈ m.form.numbers, P x) :
    ∀ x ∈ n.toValue.numbers, P x := by
  induction n using induct with
  | step f ih =>
    obtain ⟨hf, hc⟩ := everywhere_mk.mp h
    intro x hx
    rw [toValue_mk] at hx
    rcases Form.numbers_write hx with hx | ⟨c, hcf, hx⟩
    · exact hf x hx
    · exact ih c hcf (hc c hcf) x hx

theorem sound_of_ofValue {v : Value} {n : Node} (h : ofValue v = .ok n) : n.Everywhere fun m => m.form.Sound := by
  intro p m hm
  obtain ⟨π, w, -, -, hw, -⟩ := exists_place h hm
  exact (ofValue_eq_ok.mp hw).sound

theorem numbers_of_ofValue {v : Value} {n : Node} (h : ofValue v = .ok n) :
    n.Everywhere fun m => ∀ x ∈ m.form.numbers, x ∈ v.numbers := by
  intro p m hm x hx
  obtain ⟨π, w, -, hat, hw, -⟩ := exists_place h hm
  exact Value.numbers_at? hat ((ofValue_eq_ok.mp hw).numbers hx)

theorem nesting_pos {v : Value} {n : Node} (h : ofValue v = .ok n) : 0 < v.nesting := by
  obtain ⟨k, r, -, -, hr⟩ := ofValue_eq_ok.mp h
  exact hr.nesting_pos

/-- A tree is written with no more nesting than any value that it is read from. -/
theorem nesting_toValue {v : Value} {n : Node} (h : ofValue v = .ok n) : n.toValue.nesting ≤ v.nesting := by
  -- the values of the children nest less
  induction hd : v.nesting using Nat.strongRecOn generalizing v n with
  | ind d ih =>
    subst hd
    obtain ⟨f⟩ := n
    have hf : Form.Means (fun _ w c => c.toValue.nesting ≤ w.nesting ∧ 0 < w.nesting) v f := by
      refine (ofValue_eq_ok.mp h).mono fun j ρ w c hw hc => ⟨ih w.nesting ?_ hc rfl, nesting_pos hc⟩
      have := Value.nesting_at? hw
      rw [List.length_cons] at this
      omega
    rw [toValue_mk]
    exact hf.nesting_write (fun _ _ _ h => h.1) fun _ _ _ h => h.2

theorem tagged_toValue (n : Node) : n.toValue.Tagged := by
  obtain ⟨f⟩ := n
  obtain ⟨k, r, rfl⟩ := f.exists_record
  rw [toValue_mk, Form.map_ofRecord, Form.write_ofRecord]
  exact ⟨k.name, named_type_members k _⟩

theorem parse_print_of_style {style : Style} (hs : style.Blank) {v : Value} {n : Node} (h : ofValue v = .ok n)
    (hv : v.nesting < maxNesting) (hn : ∀ x ∈ n.toValue.numbers, SpellsNumber x x.text) :
    parse (String.ofList (n.toValue.print style 0)) = .ok n := by
  refine parse_eq_ok_iff.mpr ⟨n.toValue, ?_, Nat.lt_of_le_of_lt (nesting_toValue h) hv, tagged_toValue n,
    ofValue_toValue (sound_of_ofValue h)⟩
  rw [String.toList_ofList]
  exact Value.document_print hs hn

/-- The tree of a text, and each of its nodes, is read back from the texts that it is written as, if no literal
holds a double. -/
theorem parse_print {source : String} {n m : Node} {p : Position} (h : parse source = .ok n)
    (hint : n.Everywhere fun k => ∀ x ∈ k.form.numbers, ∃ z, x = .int z) (hm : n.at? p = some m) :
    parse m.toValue.compact = .ok m ∧ parse m.toValue.pretty = .ok m := by
  obtain ⟨v, ⟨_, w, _, _, hspell, _, _⟩, hnest, -, hv⟩ := parse_eq_ok_iff.mp h
  have hfits : n.Everywhere fun k => ∀ x ∈ k.form.numbers, SpellsNumber x x.text := by
    intro q k hk x hx
    obtain ⟨z, rfl⟩ := hint q k hk x hx
    exact spellsNumber_text (Value.fits_numbers hspell _ (numbers_of_ofValue hv q k hk _ hx))
  obtain ⟨π, u, -, hu, hm', -⟩ := exists_place hv hm
  have hlt : u.nesting < maxNesting := by
    have := Value.nesting_at? hu
    omega
  have hnum := numbers_toValue (hfits.at hm)
  exact ⟨parse_print_of_style blank_compact hm' hlt hnum, parse_print_of_style blank_indented hm' hlt hnum⟩

theorem parse_print_literal :
    parse
      "\x7b\"type\":\"ReturnStatement\",\"value\":\x7b\"value\":[0,\x7b\"b\":-1,\"a\":\"*\"\x7d],\"type\":20\x7d\x7d"
        = .ok (mk (.returning
          (mk (.booleanLit (.arr [.num (.int 0), .obj [("a", .str "*"), ("b", .num (.int (-1)))]]))))) ∧
      parse (mk (.booleanLit
        (.arr [.num (.int 0), .obj [("a", .str "*"), ("b", .num (.int (-1)))]]))).toValue.compact =
        .ok (mk (.booleanLit (.arr [.num (.int 0), .obj [("a", .str "*"), ("b", .num (.int (-1)))]]))) := by
  have h : parse
      "\x7b\"type\":\"ReturnStatement\",\"value\":\x7b\"value\":[0,\x7b\"b\":-1,\"a\":\"*\"\x7d],\"type\":20\x7d\x7d"
      = .ok (mk (.returning
        (mk (.booleanLit (.arr [.num (.int 0), .obj [("a", .str "*"), ("b", .num (.int (-1)))]]))))) := by
    decide +kernel
  refine ⟨h, (parse_print (p := [0]) h ?_ rfl).1⟩
  simp [everywhere_mk, form, Form.children, Form.numbers, Value.numbers, Value.numbersItems, Value.numbersMembers]

end Node

end SharpTree
