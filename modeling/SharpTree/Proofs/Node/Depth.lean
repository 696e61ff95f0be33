import SharpTree.Proofs.Json.Doubles
import SharpTree.Proofs.Node.RoundTrip
import SharpTree.Proofs.Source.Refusal

/-!
# The deepest trees that are read

Whatever a tree holds, its texts are read again if they nest less than
`maxNesting` levels deep, and are too deep otherwise (`parse_print_depth`). So the
limit itself is one level too deep: `parse_at_limit`.
-/

namespace SharpTree

open Json (Value Pointer Number SpellsNumber)
open Json.Value (named)

/-! ## Written trees can be read

The numbers of the literals may be read as others than those that were written. -/

section

variable {fs : List Field} {g : Number → Number}

def Shape.Readable (leaf : (s : Shape) → Pointer → Value → s.Carrier Node → Prop) (g : Number → Number) (s : Shape)
    (x : s.Carrier Node) : Prop :=
  ∀ u, s.write (s.map Node.toValue x) = some u → ∃ y, ∀ π, leaf s π (u.mapNumbers g) y

theorem Shape.absent?_of_write {s : Shape} {x : s.Carrier Value} (h : s.write x = none) (ν : Type) :
    ∃ y, s.absent? ν = some y := by
  cases s <;> first | exact ⟨_, rfl⟩ | cases h

theorem Record.not_mem_members (hn : (fs.map Field.name).Nodup) {w : Record Value fs} {e : Record.Entry Value}
    (he : e ∈ Record.entries fs w) (hw : e.1.shape.write e.2 = none) :
    e.1.name ∉ (Record.members fs w).map Prod.fst := by
  intro hname
  obtain ⟨m, hm, hname⟩ := List.mem_map.mp hname
  obtain ⟨e', he', hname', hw'⟩ := Record.exists_of_mem_members hm
  rw [← Record.map_fst_entries fs w, List.map_map] at hn
  cases List.inj_on_of_nodup_map hn he he' (hname.symm.trans hname')
  rw [hw] at hw'
  cases hw'

theorem Record.readable {leaf : (s : Shape) → Pointer → Value → s.Carrier Node → Prop}
    (hn : (fs.map Field.name).Nodup) (ht : "type" ∉ fs.map Field.name) {r : Record Node fs}
    (h : ∀ e ∈ Record.entries fs r, e.1.shape.Readable leaf g e.2) (t : Value) :
    ∃ r' : Record Node fs, ∀ π offset, Record.Of leaf π offset
      ((Value.obj (("type", t) :: Record.members fs (Record.map Node.toValue fs r))).mapNumbers g) fs r' := by
  rw [Value.mapNumbers, Value.mapNumbersMembers_eq_map]
  have hnames (l : List (String × Value)) :
      (l.map fun m => (m.1, m.2.mapNumbers g)).map Prod.fst = l.map Prod.fst := by
    rw [List.map_map]
    rfl
  have hnodup : ((("type", t) :: Record.members fs (Record.map Node.toValue fs r)).map Prod.fst).Nodup :=
    List.nodup_cons.mpr ⟨fun h => ht (names_members h), Record.nodup_members hn _⟩
  have hfields : ∀ f ∈ fs, ∃ y, f.Found leaf ((("type", t) :: Record.members fs (Record.map Node.toValue fs r)).map
      fun m => (m.1, m.2.mapNumbers g)) y := by
    intro f hf
    obtain ⟨x, hx⟩ := Record.exists_entry r hf
    have hentry : (⟨f, f.shape.map Node.toValue x⟩ : Record.Entry Value) ∈
        Record.entries fs (Record.map Node.toValue fs r) := by
      rw [Record.entries_map]
      exact List.mem_map.mpr ⟨_, hx, rfl⟩
    cases hw : f.shape.write (f.shape.map Node.toValue x) with
    | none =>
      obtain ⟨y, hy⟩ := Shape.absent?_of_write hw Node
      refine ⟨y, .inl ⟨?_, hy⟩⟩
      rw [hnames, List.map_cons, List.mem_cons, not_or]
      exact ⟨fun hname : f.name = "type" => ht (hname ▸ List.mem_map_of_mem hf),
        Record.not_mem_members hn hentry hw⟩
    | some u =>
      obtain ⟨y, hy⟩ := h _ hx u hw
      refine ⟨y, .inr ⟨u.mapNumbers g, List.mem_map.mpr ⟨(f.name, u), ?_, rfl⟩, hy⟩⟩
      exact List.mem_cons_of_mem _ (Record.mem_members hentry hw)
  obtain ⟨r', hr'⟩ := Record.exists_entries hfields
  exact ⟨r', Record.of_found (by rw [hnames]; exact hnodup) hr'⟩

theorem readable_nodes {xs : List Node} (hc : ∀ c ∈ xs, ∃ m, Node.Read [] (c.toValue.mapNumbers g) m) :
    ∃ ys : List Node, ∀ π : Pointer,
      Each (fun i => Node.Read (π ++ [i])) ((xs.map Node.toValue).map (Value.mapNumbers g)) ys := by
  obtain ⟨ys, hys⟩ := exists_each hc
  exact ⟨ys, fun π => (each_map_left _).mpr ((each_map_left _).mpr hys)⟩

theorem Shape.readable_plain {s : Shape} (hs : s ≠ .declarator) {x : s.Carrier Node}
    (hc : ∀ c ∈ s.nodesIn x, ∃ m, Node.Read [] (c.toValue.mapNumbers g) m) :
    s.Readable (Plain Node.Read) g x := by
  intro u hu
  cases s with
  | kind =>
    cases hu
    exact ⟨x, fun _ => Kind.told_name x⟩
  | nothing =>
    cases hu
    exact ⟨(), fun _ => .inl rfl⟩
  | node =>
    cases hu
    obtain ⟨m, hm⟩ := hc x List.mem_cons_self
    exact ⟨m, fun _ => hm⟩
  | optionalNode =>
    cases x with
    | none => cases hu
    | some c =>
      cases hu
      obtain ⟨m, hm⟩ := hc c List.mem_cons_self
      exact ⟨some m, fun _ => .inr ⟨m, hm, rfl⟩⟩
  | nodes | optionalNodes =>
    cases hu
    obtain ⟨ys, hys⟩ := readable_nodes hc
    exact ⟨ys, fun π => ⟨_, by rw [Value.mapNumbers, Value.mapNumbersItems_eq_map]; rfl, hys π⟩⟩
  | declarator => exact absurd rfl hs
  | accessors =>
    cases hu
    rw [Value.mapNumbers, Value.mapNumbersMembers_eq_map, Shape.map, List.map_map, List.map_map]
    obtain ⟨bs, hbs⟩ : ∃ bs : List (Accessor × Node), Each (fun _ b b' => b'.1 = .ofKey b.1.key ∧
        Node.Read [] (b.2.toValue.mapNumbers g) b'.2) x bs := by
      refine exists_each fun b hb => ?_
      obtain ⟨m, hm⟩ := hc b.2 (List.mem_map_of_mem hb)
      exact ⟨(.ofKey b.1.key, m), rfl, hm⟩
    exact ⟨bindAll bs, fun π => ⟨_, bs, rfl, (each_map_left _).mpr hbs, rfl⟩⟩
  | modifiers =>
    cases x with
    | none => cases hu
    | some ms =>
      cases hu
      refine ⟨some (ms.map fun m => .ofToken m.token), fun _ => .inr ⟨ms.map Modifier.token, ?_, ?_⟩⟩
      · rw [Value.mapNumbers, Value.mapNumbersItems_eq_map, List.map_map, List.map_map]
        rfl
      · rw [List.map_map]
        rfl
  | blockKind =>
    cases hu
    exact ⟨.ofName x.name, fun _ => .inl ⟨_, rfl, rfl⟩⟩
  | text =>
    cases hu
    exact ⟨x, fun _ => rfl⟩
  | literal =>
    cases hu
    exact ⟨_, fun _ => rfl⟩

theorem Shape.readable (s : Shape) {x : s.Carrier Node}
    (hc : ∀ c ∈ s.nodesIn x, ∃ m, Node.Read [] (c.toValue.mapNumbers g) m) : s.Readable (Means Node.Read) g x := by
  by_cases hs : s = .declarator
  · subst hs
    intro u hu
    cases hu
    have hfields :
        ∀ e ∈ Record.entries Declarator.fields x.toRecord, e.1.shape.Readable (Plain Node.Read) g e.2 := by
      intro e he
      refine Shape.readable_plain (Declarator.shape_ne e.1 (Record.mem_of_entries he)) fun c h => hc c ?_
      have hg : c ∈ Record.gather nodesIn Declarator.fields x.toRecord := List.mem_flatMap.mpr ⟨e, he, h⟩
      simpa [Record.gather, Record.entries, nodesIn, Declarator.toRecord, Declarator.children] using hg
    obtain ⟨r, hr⟩ := Record.readable Declarator.fields_nodup (Kind.type_not_mem_fields .declarator) hfields _
    refine ⟨.ofRecord r, fun π => ?_⟩
    rw [Declarator.members_eq]
    exact hr π 0
  · rw [Shape.Readable, Shape.means_eq_plain Node.Read hs]
    exact Shape.readable_plain hs hc

end

theorem named_map {α β : Type} (h : α → β) (name : String) (ms : List (String × α)) :
    named name (ms.map fun m => (m.1, h m.2)) = (named name ms).map h := by
  unfold named
  rw [List.filter_map, List.map_map, List.map_map]
  rfl

namespace Node

theorem named_type_mapNumbers (g : Number → Number) (k : Kind) (r : Record Value k.fields) :
    named "type" (Value.mapNumbersMembers g (("type", .str k.name) :: Record.members k.fields r)) =
      [.str k.name] := by
  rw [Value.mapNumbersMembers_eq_map, named_map, named_type_members]
  rfl

theorem tagged_mapNumbers (g : Number → Number) (n : Node) : (n.toValue.mapNumbers g).Tagged := by
  obtain ⟨f⟩ := n
  obtain ⟨k, r, rfl⟩ := f.exists_record
  rw [toValue_mk, Form.map_ofRecord, Form.write_ofRecord]
  exact ⟨k.name, named_type_mapNumbers g k _⟩

/-- What is written for a tree can be read, whatever becomes of its numbers. -/
theorem ofValue_mapNumbers (g : Number → Number) (n : Node) : ∃ m, ofValue (n.toValue.mapNumbers g) = .ok m := by
  induction n using induct with
  | step f ih =>
    obtain ⟨k, r, rfl⟩ := f.exists_record
    rw [toValue_mk, Form.map_ofRecord, Form.write_ofRecord]
    have hfields : ∀ e ∈ Record.entries k.fields r, e.1.shape.Readable (Shape.Means Read) g e.2 := fun e he =>
      e.1.shape.readable fun c h => ih c (Form.mem_children_ofRecord.mpr (List.mem_flatMap.mpr ⟨e, he, h⟩))
    obtain ⟨r', hr'⟩ := Record.readable k.fields_nodup k.type_not_mem_fields hfields (.str k.name)
    refine ⟨mk (.ofRecord k r'), ofValue_eq_ok.mpr ⟨k, r', rfl, ?_, hr' [] 1⟩⟩
    exact ⟨_, named_type_mapNumbers g k _, k.told_name⟩

/-! ## The limit -/

/-- A text of a tree is read if it nests less deep than the limit, and is too deep otherwise. -/
theorem parse_document_mapNumbers {g : Number → Number} {n : Node} {text : String}
    (h : (n.toValue.mapNumbers g).Document text.toList) :
    (n.toValue.nesting < maxNesting ∧ ∃ m, parse text = .ok m) ∨
      maxNesting ≤ n.toValue.nesting ∧ ∃ place, parse text = .error (.tooDeep place) := by
  obtain ⟨hlt, hparse⟩ | ⟨hle, hparse⟩ | ⟨hno, -⟩ := parse_document h
  · obtain ⟨m, hm⟩ := ofValue_mapNumbers g n
    rw [Value.nesting_mapNumbers] at hlt
    exact .inl ⟨hlt, m, by rw [hparse, hm]; rfl⟩
  · rw [Value.nesting_mapNumbers] at hle
    exact .inr ⟨hle, hparse⟩
  · exact absurd (tagged_mapNumbers g n) hno

theorem exists_document {n : Node} (h : n.Everywhere fun m => ∀ x ∈ m.form.numbers, x.Storable) :
    ∃ g, (n.toValue.mapNumbers g).Document n.toValue.compact.toList ∧
      (n.toValue.mapNumbers g).Document n.toValue.pretty.toList := by
  have hall : ∀ x ∈ n.toValue.numbers, ∃ y, SpellsNumber y x.text :=
    fun x hx => Json.exists_spells_text (numbers_toValue h x hx)
  obtain ⟨g, hg⟩ : ∃ g : Number → Number, ∀ x ∈ n.toValue.numbers, SpellsNumber (g x) x.text := by
    classical
    refine ⟨fun x => if hx : ∃ y, SpellsNumber y x.text then hx.choose else x, fun x hx => ?_⟩
    simp only [dif_pos (hall x hx)]
    exact (hall x hx).choose_spec
  refine ⟨g, ?_, ?_⟩
  · rw [Value.compact, String.toList_ofList]
    exact Value.document_print_map Json.blank_compact hg
  · rw [Value.pretty, String.toList_ofList]
    exact Value.document_print_map Json.blank_indented hg

/-- The texts of a tree are too deep exactly if they nest more than 127 levels deep, and are read otherwise. -/
theorem parse_print_depth {n : Node} (h : n.Everywhere fun m => ∀ x ∈ m.form.numbers, x.Storable)
    {text : String} (ht : text = n.toValue.compact ∨ text = n.toValue.pretty) :
    ((∃ place, parse text = .error (.tooDeep place)) ↔ 127 < n.toValue.nesting) ∧
      ((∃ m, parse text = .ok m) ↔ n.toValue.nesting ≤ 127) := by
  obtain ⟨g, hcompact, hpretty⟩ := exists_document h
  have hdoc : (n.toValue.mapNumbers g).Document text.toList := by
    obtain rfl | rfl := ht
    · exact hcompact
    · exact hpretty
  obtain ⟨hlt, m, hm⟩ | ⟨hle, place, hp⟩ := parse_document_mapNumbers hdoc
  · have hno : ¬ 127 < n.toValue.nesting := Nat.not_lt.mpr (Nat.le_of_lt_succ hlt)
    simp [hm, hno, Nat.le_of_lt_succ hlt]
  · have hdeep : 127 < n.toValue.nesting := hle
    simp [hp, hdeep]

def nestedReturns (inner : Node) : Nat → Node
  | 0 => inner
  | d + 1 => mk (.returning (nestedReturns inner d))

theorem nesting_nestedReturns (inner : Node) (d : Nat) :
    (nestedReturns inner d).toValue.nesting = inner.toValue.nesting + d := by
  induction d with
  | zero => rfl
  | succ d ih =>
    have hstep : (nestedReturns inner (d + 1)).toValue.nesting = (nestedReturns inner d).toValue.nesting + 1 := by
      rw [nestedReturns, toValue_mk]
      simp [Form.map, Form.write, Form.toRecord, Form.kind, Record.members, Shape.write, Value.nesting,
        Value.nestingMembers]
    rw [hstep, ih, Nat.add_assoc]

theorem nestedReturns_storable {inner : Node} (h : inner.Everywhere fun m => ∀ x ∈ m.form.numbers, x.Storable)
    (d : Nat) : (nestedReturns inner d).Everywhere fun m => ∀ x ∈ m.form.numbers, x.Storable := by
  induction d with
  | zero => exact h
  | succ d ih => simpa [nestedReturns, everywhere_mk, form, Form.children, Form.numbers] using ih

def largestNumbers : Node :=
  mk (.numberLit (.arr [.num (.float 1.7976931348623157e308), .num (.int 0xffffffffffffffff)]))

theorem largestNumbers_storable : largestNumbers.Everywhere fun m => ∀ x ∈ m.form.numbers, x.Storable := by
  have hdouble : (1.7976931348623157e308 : Float).isFinite = true := by decide +kernel
  simp [largestNumbers, everywhere_mk, form, Form.children, Form.numbers, Value.numbers, Value.numbersItems,
    Number.Storable, Number.Fits, hdouble]

theorem parse_print_depth_nested :
    (nestedReturns largestNumbers 125).Everywhere (fun m => ∀ x ∈ m.form.numbers, x.Storable) ∧
      (nestedReturns largestNumbers 125).toValue.nesting = 127 ∧
      ∃ m, parse (nestedReturns largestNumbers 125).toValue.compact = .ok m := by
  have hstorable := nestedReturns_storable largestNumbers_storable 125
  have hnesting : (nestedReturns largestNumbers 125).toValue.nesting = 127 := nesting_nestedReturns _ _
  exact ⟨hstorable, hnesting, (parse_print_depth hstorable (.inl rfl)).2.mpr (Nat.le_of_eq hnesting)⟩

/-- Trees whose text nests as deep as the limit are too deep. -/
theorem parse_at_limit : (nestedReturns (mk (.identifier "x")) 127).toValue.nesting = maxNesting ∧
    ∃ place, parse (nestedReturns (mk (.identifier "x")) 127).toValue.compact = .error (.tooDeep place) := by
  have hnesting : (nestedReturns (mk (.identifier "x")) 127).toValue.nesting = maxNesting :=
    nesting_nestedReturns _ _
  have hname : (mk (.identifier "x")).Everywhere fun m => ∀ x ∈ m.form.numbers, x.Storable := by
    simp [everywhere_mk, form, Form.children, Form.numbers]
  obtain ⟨g, hdoc, -⟩ := exists_document (nestedReturns_storable hname 127)
  obtain ⟨hlt, -⟩ | ⟨-, hplace⟩ := parse_document_mapNumbers hdoc
  · rw [hnesting] at hlt
    exact absurd hlt (by decide)
  · exact ⟨hnesting, hplace⟩

end Node

end SharpTree
