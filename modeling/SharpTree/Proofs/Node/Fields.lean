import SharpTree.Node.Writer
import SharpTree.Proofs.Node.Meaning

/-!
# Forms as records

A form is a kind with a record of fields, so what is said about every shape
holds of every form. Here a map of the children, the children themselves and the
written object are brought to the fields.
-/

namespace SharpTree

open Json (Value Pointer)

variable {ν μ : Type}

namespace Shape

def map (g : ν → μ) : (s : Shape) → s.Carrier ν → s.Carrier μ
  | kind, k => k
  | nothing, u => u
  | node, x => g x
  | optionalNode, o => Option.map g o
  | nodes, xs => List.map g xs
  | optionalNodes, xs => List.map g xs
  | declarator, d => Declarator.map g d
  | accessors, as => List.map (fun b => (b.1, g b.2)) as
  | modifiers, o => o
  | blockKind, b => b
  | text, s => s
  | literal, v => v

def nodesIn : (s : Shape) → s.Carrier ν → List ν
  | node, x => [x]
  | optionalNode, o => o.toList
  | nodes, xs => xs
  | optionalNodes, xs => xs
  | declarator, d => d.children
  | accessors, as => as.map Prod.snd
  | kind, _ | nothing, _ | modifiers, _ | blockKind, _ | text, _ | literal, _ => []

theorem map_absent? (g : ν → μ) (s : Shape) : s.absent? μ = (s.absent? ν).map (s.map g) := by
  cases s <;> rfl

theorem map_id (s : Shape) (x : s.Carrier ν) : s.map id x = x := by
  cases s <;> simp [map, Declarator.map]

theorem nodesIn_absent? {s : Shape} {x : s.Carrier ν} (h : s.absent? ν = some x) : s.nodesIn x = [] := by
  cases s <;> cases h <;> rfl

end Shape

namespace Record

def map (g : ν → μ) : (fs : List Field) → Record ν fs → Record μ fs
  | [], _ => ()
  | f :: fs, (x, rest) => (f.shape.map g x, Record.map g fs rest)

abbrev Entry (ν : Type) := (f : Field) × f.shape.Carrier ν

def entries : (fs : List Field) → Record ν fs → List (Entry ν)
  | [], _ => []
  | f :: fs, (x, rest) => ⟨f, x⟩ :: entries fs rest

/-- What the contents of the fields have inside, field by field. -/
def gather {α : Type} (part : (s : Shape) → s.Carrier ν → List α) (fs : List Field) (r : Record ν fs) : List α :=
  (entries fs r).flatMap fun e => part e.1.shape e.2

theorem map_fst_entries : ∀ (fs : List Field) (r : Record ν fs), (entries fs r).map Sigma.fst = fs
  | [], _ => rfl
  | f :: fs, (_, rest) => congrArg (f :: ·) (map_fst_entries fs rest)

theorem mem_of_entries {fs : List Field} {r : Record ν fs} {e : Entry ν} (h : e ∈ entries fs r) :
    e.1 ∈ fs := by
  rw [← map_fst_entries fs r]
  exact List.mem_map_of_mem h

theorem field_of_entries {fs : List Field} {r : Record ν fs} {i : Nat} {e : Entry ν}
    (h : (entries fs r)[i]? = some e) : fs[i]? = some e.1 := by
  rw [← map_fst_entries fs r, List.getElem?_map, h, Option.map_some]

theorem exists_entry {fs : List Field} (r : Record ν fs) {f : Field} (h : f ∈ fs) :
    ∃ x : f.shape.Carrier ν, ⟨f, x⟩ ∈ entries fs r := by
  rw [← map_fst_entries fs r] at h
  obtain ⟨⟨_, x⟩, he, rfl⟩ := List.mem_map.mp h
  exact ⟨x, he⟩

theorem entries_map (g : ν → μ) : ∀ (fs : List Field) (r : Record ν fs),
    entries fs (Record.map g fs r) = (entries fs r).map fun e => ⟨e.1, e.1.shape.map g e.2⟩
  | [], _ => rfl
  | f :: fs, (x, rest) => congrArg (List.cons (⟨f, f.shape.map g x⟩ : Entry μ)) (entries_map g fs rest)

theorem members_eq_filterMap : ∀ (fs : List Field) (r : Record Value fs),
    Record.members fs r = (entries fs r).filterMap fun e => (e.1.shape.write e.2).map fun v => (e.1.name, v)
  | [], _ => rfl
  | f :: fs, (x, rest) => by
    rw [Record.members, members_eq_filterMap fs rest, entries, List.filterMap_cons]
    cases f.shape.write x <;> rfl

theorem exists_of_mem_members {fs : List Field} {r : Record Value fs} {m : String × Value}
    (h : m ∈ Record.members fs r) : ∃ e ∈ entries fs r, m.1 = e.1.name ∧ e.1.shape.write e.2 = some m.2 := by
  rw [members_eq_filterMap] at h
  obtain ⟨e, he, hm⟩ := List.mem_filterMap.mp h
  obtain ⟨v, hv, rfl⟩ := Option.map_eq_some_iff.mp hm
  exact ⟨e, he, rfl, hv⟩

theorem stands_iff {α : Type} {reads : α → (s : Shape) → s.Carrier ν → Prop} : ∀ {fs : List Field} {r : Record ν fs}
    {entry : Nat → Field → Option α}, Record.Stands reads entry fs r ↔
    ∀ (i : Nat) (e : Entry ν), (entries fs r)[i]? = some e → e.1.Stands reads e.2 (entry i e.1)
  | [], _, _ => by simp [Record.Stands, entries]
  | f :: fs, (x, rest), entry => by
    rw [Record.Stands, stands_iff]
    constructor
    · intro h i e he
      cases i with
      | zero =>
        cases he
        exact h.1
      | succ i => exact h.2 i e he
    · intro h
      exact ⟨h 0 ⟨f, x⟩ rfl, fun i e he => h (i + 1) e he⟩

end Record

theorem Json.Value.child?_of_entry {v w : Value} {offset i j : Nat} {f : Field}
    (h : v.entry offset i f = some (j, w)) : v.child? j = some w := by
  cases v with
  | obj ms =>
    have hm : ms[j]? = some (f.name, w) := mem_indexed.mp (List.mem_of_mem_head? h)
    simp [Value.child?, hm]
  | arr vs =>
    obtain ⟨a, ha, e⟩ := Option.map_eq_some_iff.mp h
    cases e
    exact ha
  | _ => cases h

/-- What a field of a value holds is told by a part of the value, unless the field is left out. -/
theorem Record.Of.field {leaf : (s : Shape) → Pointer → Value → s.Carrier ν → Prop} {π : Pointer} {offset : Nat}
    {v : Value} {fs : List Field} {r : Record ν fs} (hr : Record.Of leaf π offset v fs r) {e : Record.Entry ν}
    (he : e ∈ Record.entries fs r) :
    e.1.shape.absent? ν = some e.2 ∨ ∃ j w, v.child? j = some w ∧ leaf e.1.shape (π ++ [j]) w e.2 := by
  obtain ⟨i, hi⟩ := List.getElem?_of_mem he
  have hst := Record.stands_iff.mp hr.2 i e hi
  cases hentry : v.entry offset i e.1 with
  | none =>
    rw [hentry] at hst
    exact .inl hst
  | some a =>
    rw [hentry] at hst
    exact .inr ⟨a.1, a.2, Value.child?_of_entry hentry, hst⟩

namespace Form

theorem exists_record (f : Form ν) : ∃ (k : Kind) (r : Record ν k.fields), f = ofRecord k r :=
  ⟨f.kind, f.toRecord, (ofRecord_toRecord f).symm⟩

theorem map_ofRecord (g : ν → μ) (k : Kind) (r : Record ν k.fields) :
    (ofRecord k r).map g = ofRecord k (Record.map g k.fields r) := by
  cases k <;> rfl

theorem map_id (f : Form ν) : f.map id = f :=
  ext_own (own_map id f) (by rw [children_map, List.map_id])

/-- The children are what the fields have inside, though not always in the order of the fields. -/
theorem children_perm_ofRecord {k : Kind} (r : Record ν k.fields) :
    ((ofRecord k r).children).Perm (Record.gather Shape.nodesIn k.fields r) := by
  cases k with
  | property =>
    -- the fields have the default value before the accessors, the children after them
    obtain ⟨ms, d, accessors, ⟨⟩⟩ := r
    simp only [ofRecord, children, Record.gather, Record.entries, List.flatMap_cons, List.flatMap_nil,
      Shape.nodesIn, Declarator.children, List.cons_append, List.append_nil, List.nil_append]
    exact ((List.perm_append_comm).cons _).cons _
  | _ =>
    simp [ofRecord, children, Record.gather, Record.entries, Shape.nodesIn, Declarator.children,
      Declarator.ofRecord]

theorem mem_children_ofRecord {k : Kind} {r : Record ν k.fields} {c : ν} :
    c ∈ (ofRecord k r).children ↔ c ∈ Record.gather Shape.nodesIn k.fields r :=
  (children_perm_ofRecord r).mem_iff

theorem write_ofRecord (k : Kind) (r : Record Value k.fields) :
    (ofRecord k r).write = .obj (("type", .str k.name) :: Record.members k.fields r) := by
  cases k <;> rfl

end Form

theorem Declarator.members_eq (d : Declarator Value) : d.members = Record.members Declarator.fields d.toRecord := by
  obtain ⟨t, n, v⟩ := d
  cases v <;> rfl

end SharpTree
