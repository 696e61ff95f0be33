import SharpTree.Node.Reading
import SharpTree.Proofs.Json.Pointer
import SharpTree.Proofs.Node.Accessor
import SharpTree.Proofs.Source.Text

/-!
# What a value stands for

Reading a tree from a value goes through the members of each object in turn and
stops at the first mismatch. What it comes to can be said without an order: the
value of each field is found by its name or its place, and stands for the
contents of the field. `Form.Means N v f` says that for one layer of a tree,
where `N` says what the values of the children stand for.

`N` also sees the pointer to a child's value, so that the same relation tells which
part of a value each child is read from.
-/

namespace SharpTree

open Json (Value Pointer Number)
open Json.Value (named)
open Source (bind_eq_ok)

/-! ## Lists side by side -/

/-- Two lists of one length, with a relation between the entries at each index. -/
def Each {α β : Type} (R : Nat → α → β → Prop) (as : List α) (bs : List β) : Prop :=
  as.length = bs.length ∧ ∀ i a b, as[i]? = some a → bs[i]? = some b → R i a b

section

variable {α β : Type} {R : Nat → α → β → Prop}

theorem each_nil : Each R [] [] :=
  ⟨rfl, fun _ _ _ h => by cases h⟩

theorem each_cons {a : α} {as : List α} {b : β} {bs : List β} :
    Each R (a :: as) (b :: bs) ↔ R 0 a b ∧ Each (fun i => R (i + 1)) as bs := by
  constructor
  · rintro ⟨hl, h⟩
    exact ⟨h 0 a b rfl rfl, Nat.succ.inj hl, fun i x y hx hy => h (i + 1) x y hx hy⟩
  · rintro ⟨h₀, hl, h⟩
    refine ⟨congrArg Nat.succ hl, fun i x y hx hy => ?_⟩
    cases i with
    | zero => cases hx; cases hy; exact h₀
    | succ i => exact h i x y hx hy

theorem not_each_nil {b : β} {bs : List β} : ¬ Each R [] (b :: bs) := fun h => by cases h.1

theorem not_each_cons {a : α} {as : List α} : ¬ Each R (a :: as) [] := fun h => by cases h.1

theorem Each.mono {S : Nat → α → β → Prop} (h : ∀ i a b, R i a b → S i a b) {as : List α} {bs : List β}
    (e : Each R as bs) : Each S as bs :=
  ⟨e.1, fun i a b ha hb => h i a b (e.2 i a b ha hb)⟩

theorem each_map_left {γ : Type} (g : γ → α) {cs : List γ} {bs : List β} :
    Each R (cs.map g) bs ↔ Each (fun i c b => R i (g c) b) cs bs := by
  unfold Each
  simp only [List.length_map, List.getElem?_map, Option.map_eq_some_iff, and_congr_right_iff]
  exact fun _ => ⟨fun h i c b hc hb => h i (g c) b ⟨c, hc, rfl⟩ hb,
    fun h i a b ⟨c, hc, e⟩ hb => e ▸ h i c b hc hb⟩

theorem each_self {R : Nat → α → α → Prop} {as : List α} (h : ∀ a ∈ as, ∀ i, R i a a) : Each R as as :=
  ⟨rfl, fun i a b ha hb => by
    cases ha.symm.trans hb
    exact h a (List.mem_of_getElem? ha) i⟩

theorem each_eq_map {g : β → α} : ∀ {as : List α} {bs : List β}, Each (fun _ a b => a = g b) as bs ↔ as = bs.map g
  | [], [] => by simp [each_nil]
  | [], _ :: _ => by simp [not_each_nil]
  | _ :: _, [] => by simp [not_each_cons]
  | a :: as, b :: bs => by rw [each_cons, each_eq_map, List.map_cons, List.cons.injEq]

theorem Each.exists_right {as : List α} {bs : List β} (e : Each R as bs) {b : β} (hb : b ∈ bs) :
    ∃ i a, as[i]? = some a ∧ R i a b := by
  obtain ⟨i, hi, rfl⟩ := List.mem_iff_getElem.mp hb
  have hi' : i < as.length := e.1 ▸ hi
  exact ⟨i, as[i], List.getElem?_eq_getElem hi',
    e.2 i _ _ (List.getElem?_eq_getElem hi') (List.getElem?_eq_getElem hi)⟩

end

theorem exists_each {α β : Type} {P : α → β → Prop} : ∀ {as : List α}, (∀ a ∈ as, ∃ b, P a b) →
    ∃ bs, Each (fun _ => P) as bs
  | [], _ => ⟨[], each_nil⟩
  | a :: as, h => by
    obtain ⟨⟨b, hb⟩, has⟩ := List.forall_mem_cons.mp h
    obtain ⟨bs, hbs⟩ := exists_each has
    exact ⟨b :: bs, each_cons.mpr ⟨hb, hbs⟩⟩

theorem mapM_eq_ok {ε α β : Type} {f : α → Except ε β} : ∀ {as : List α} {bs : List β},
    as.mapM f = .ok bs ↔ Each (fun _ a b => f a = .ok b) as bs
  | [], [] => by simp [List.mapM_nil, pure, Except.pure, each_nil]
  | [], b :: bs => by simp [List.mapM_nil, pure, Except.pure, not_each_nil]
  | a :: as, bs => by
    rw [List.mapM_cons, bind_eq_ok]
    constructor
    · rintro ⟨b, hb, h⟩
      obtain ⟨bs', hbs, h'⟩ := bind_eq_ok.mp h
      cases h'
      exact each_cons.mpr ⟨hb, mapM_eq_ok.mp hbs⟩
    · intro h
      cases bs with
      | nil => exact absurd h not_each_cons
      | cons b bs =>
        obtain ⟨hb, hbs⟩ := each_cons.mp h
        exact ⟨b, hb, bind_eq_ok.mpr ⟨bs, mapM_eq_ok.mpr hbs, rfl⟩⟩

/-! ## Fields -/

def indexed {α : Type} (name : String) (ms : List (String × α)) : List (Nat × α) :=
  (ms.zipIdx.filter (·.1.1 = name)).map fun m => (m.2, m.1.2)

section

variable {ν α : Type} (reads : α → (s : Shape) → s.Carrier ν → Prop)

/-- The contents of a field are what its entry stands for. A field without an entry must be one
that may be left out. -/
def Field.Stands (f : Field) (x : f.shape.Carrier ν) : Option α → Prop
  | some a => reads a f.shape x
  | none => f.shape.absent? ν = some x

def Record.Stands : (Nat → Field → Option α) → (fs : List Field) → Record ν fs → Prop
  | _, [], _ => True
  | entry, f :: fs, (x, rest) => f.Stands reads x (entry 0 f) ∧ Record.Stands (fun i => entry (i + 1)) fs rest

end

theorem Record.stands_congr {ν α β : Type} {reads : α → (s : Shape) → s.Carrier ν → Prop}
    {reads' : β → (s : Shape) → s.Carrier ν → Prop} : ∀ {fs : List Field} {entry : Nat → Field → Option α}
    {entry' : Nat → Field → Option β} {r : Record ν fs},
    (∀ i, ∀ f ∈ fs, ∀ x, f.Stands reads x (entry i f) ↔ f.Stands reads' x (entry' i f)) →
    (Record.Stands reads entry fs r ↔ Record.Stands reads' entry' fs r)
  | [], _, _, _, _ => Iff.rfl
  | f :: fs, entry, entry', (x, rest), h => by
    have ih : Record.Stands reads (fun i => entry (i + 1)) fs rest ↔
        Record.Stands reads' (fun i => entry' (i + 1)) fs rest :=
      stands_congr fun i g hg => h (i + 1) g (by simp [hg])
    rw [Record.Stands, Record.Stands, ih, h 0 f (by simp) x]

/-! ## Members in any order -/

theorem named_cons {α : Type} (name : String) (m : String × α) (ms : List (String × α)) :
    named name (m :: ms) = named name [m] ++ named name ms := by
  unfold named
  rw [← List.map_append, ← List.filter_append]
  rfl

theorem named_self {α : Type} (name : String) (a : α) : named name [(name, a)] = [a] := by
  simp [named]

theorem named_ne {α : Type} {name other : String} (h : other ≠ name) (a : α) : named name [(other, a)] = [] := by
  simp [named, h]

namespace Slots

/-- What taking in members does to slots, field by field. -/
def Filled (ms : List (String × Reading)) : (fs : List Field) → Slots fs → Slots fs → Prop
  | [], _, _ => True
  | f :: fs, (slot, rest), (slot', rest') =>
    ((named f.name ms = [] ∧ slot' = slot) ∨
      (slot = none ∧ ∃ r x, named f.name ms = [r] ∧ r f.shape = .ok x ∧ slot' = some x)) ∧ Filled ms fs rest rest'

theorem filled_nil : ∀ {fs : List Field} {s s' : Slots fs}, Filled [] fs s s' ↔ s' = s
  | [], _, _ => by simp [Filled]
  | f :: fs, (slot, rest), (slot', rest') => by
    simp only [Filled, filled_nil, Prod.mk.injEq]
    constructor
    · rintro ⟨⟨-, rfl⟩ | ⟨-, r, x, h, -⟩, rfl⟩
      · exact ⟨rfl, rfl⟩
      · cases h
    · rintro ⟨rfl, rfl⟩
      exact ⟨.inl ⟨rfl, rfl⟩, rfl⟩

theorem filled_of_not_mem {name : String} {value : Reading} : ∀ {fs : List Field} {s s' : Slots fs},
    name ∉ fs.map Field.name → (Filled [(name, value)] fs s s' ↔ s' = s)
  | [], _, _, _ => by simp [Filled]
  | f :: fs, (slot, rest), (slot', rest'), h => by
    simp only [List.map_cons, List.mem_cons, not_or] at h
    simp only [Filled, filled_of_not_mem h.2, Prod.mk.injEq, named_ne h.1]
    constructor
    · rintro ⟨⟨-, rfl⟩ | ⟨-, r, x, e, -⟩, rfl⟩
      · exact ⟨rfl, rfl⟩
      · cases e
    · rintro ⟨rfl, rfl⟩
      exact ⟨.inl ⟨trivial, rfl⟩, rfl⟩

theorem put_eq_ok {name : String} {value : Reading} : ∀ {fs : List Field} {s s' : Slots fs},
    (fs.map Field.name).Nodup → (put name value fs s = .ok s' ↔ Filled [(name, value)] fs s s')
  | [], _, _, _ => by simp [put, Filled]
  | f :: fs, (slot, rest), (slot', rest'), hn => by
    obtain ⟨hf, hfs⟩ := List.nodup_cons.mp hn
    by_cases hname : f.name = name
    · subst hname
      simp only [put, if_true, Filled, filled_of_not_mem hf, named_self]
      cases slot with
      | some y => simp
      | none =>
        simp only [bind_eq_ok, Except.ok.injEq, Prod.mk.injEq, List.cons.injEq, and_true]
        constructor
        · rintro ⟨x, hx, rfl, rfl⟩
          exact ⟨.inr ⟨trivial, value, x, rfl, hx, rfl⟩, rfl⟩
        · rintro ⟨⟨h, -⟩ | ⟨-, r, x, rfl, hx, rfl⟩, rfl⟩
          · cases h
          · exact ⟨x, hx, rfl, rfl⟩
    · simp only [put, if_neg hname, Filled, named_ne (Ne.symm hname), bind_eq_ok, put_eq_ok hfs, Except.ok.injEq,
        Prod.mk.injEq]
      constructor
      · rintro ⟨r, hr, rfl, rfl⟩
        exact ⟨.inl ⟨trivial, rfl⟩, hr⟩
      · rintro ⟨⟨-, rfl⟩ | ⟨-, r, x, e, -⟩, hr⟩
        · exact ⟨rest', hr, rfl, rfl⟩
        · cases e

theorem filled_cons {m : String × Reading} {ms : List (String × Reading)} : ∀ {fs : List Field} {s s' : Slots fs},
    Filled (m :: ms) fs s s' ↔ ∃ t, Filled [m] fs s t ∧ Filled ms fs t s'
  | [], _, _ => by simp [Filled]
  | f :: fs, (slot, rest), (slot', rest') => by
    obtain ⟨name, value⟩ := m
    simp only [Filled]
    rw [filled_cons, named_cons]
    by_cases hname : name = f.name
    · subst hname
      rw [named_self]
      constructor
      · rintro ⟨⟨h, -⟩ | ⟨rfl, r, x, h, hx, rfl⟩, t, ht, ht'⟩
        · cases h
        · obtain ⟨rfl, h'⟩ := List.cons.inj h
          exact ⟨(some x, t), ⟨.inr ⟨rfl, value, x, rfl, hx, rfl⟩, ht⟩, .inl ⟨h', rfl⟩, ht'⟩
      · rintro ⟨⟨mid, t⟩, ⟨⟨h, -⟩ | ⟨rfl, r, x, h, hx, rfl⟩, ht⟩, hmid, ht'⟩
        · cases h
        · obtain ⟨rfl, -⟩ := List.cons.inj h
          rcases hmid with ⟨h', rfl⟩ | ⟨h', -⟩
          · exact ⟨.inr ⟨rfl, value, x, by rw [h']; rfl, hx, rfl⟩, t, ht, ht'⟩
          · cases h'
    · rw [named_ne hname, List.nil_append]
      constructor
      · rintro ⟨h, t, ht, ht'⟩
        exact ⟨(slot, t), ⟨.inl ⟨rfl, rfl⟩, ht⟩, h, ht'⟩
      · rintro ⟨⟨mid, t⟩, ⟨⟨-, rfl⟩ | ⟨-, r, x, e, -⟩, ht⟩, h, ht'⟩
        · exact ⟨h, t, ht, ht'⟩
        · cases e

theorem putAll_eq_ok {fs : List Field} (hn : (fs.map Field.name).Nodup) : ∀ {ms : List (String × Reading)}
    {s s' : Slots fs}, putAll fs ms s = .ok s' ↔ Filled ms fs s s'
  | [], s, s' => by
    rw [filled_nil, putAll, Except.ok.injEq]
    exact eq_comm
  | (name, value) :: ms, s, s' => by
    simp only [putAll, bind_eq_ok, put_eq_ok hn, putAll_eq_ok hn]
    exact filled_cons.symm

theorem close_cons_eq_ok {f : Field} {fs : List Field} {slot : Option (f.shape.Carrier Node)} {rest : Slots fs}
    {x : f.shape.Carrier Node} {r : Record Node fs} :
    close (f :: fs) (slot, rest) = .ok (x, r) ↔
      slot.or (f.shape.absent? Node) = some x ∧ close fs rest = .ok r := by
  simp only [close]
  cases slot.or (f.shape.absent? Node) with
  | none => simp [bind, Except.bind]
  | some y =>
    simp only [bind_eq_ok, Except.ok.injEq, Prod.mk.injEq, Option.some.injEq]
    constructor
    · rintro ⟨_, rfl, r', hr, rfl, rfl⟩
      exact ⟨rfl, hr⟩
    · rintro ⟨rfl, hr⟩
      exact ⟨y, rfl, r, hr, rfl, rfl⟩

end Slots

namespace Record

/-- Members give a record if no field is repeated and each field that is named is what its value says. -/
theorem ofMembers_eq_ok {ms : List (String × Reading)} : ∀ {fs : List Field} {r : Record Node fs},
    (fs.map Field.name).Nodup → (Record.ofMembers fs ms = .ok r ↔
      (∀ f ∈ fs, (named f.name ms).length ≤ 1) ∧
        Stands (fun (a : Reading) s x => a s = .ok x) (fun _ f => (named f.name ms).head?) fs r) := by
  intro fs r hn
  simp only [Record.ofMembers, bind_eq_ok, Slots.putAll_eq_ok hn]
  clear hn
  induction fs with
  | nil => simp [Slots.Filled, Slots.close, Stands]
  | cons f fs ih =>
    obtain ⟨x, r⟩ := r
    rw [List.forall_mem_cons, Stands, and_and_and_comm, ← ih]
    constructor
    · rintro ⟨⟨slot, rest⟩, ⟨hs, hf⟩, hc⟩
      obtain ⟨hx, hr⟩ := Slots.close_cons_eq_ok.mp hc
      refine ⟨?_, rest, hf, hr⟩
      rcases hs with ⟨h, rfl⟩ | ⟨-, a, y, h, hy, rfl⟩
      · rw [h]
        exact ⟨Nat.zero_le _, hx⟩
      · rw [h]
        cases hx
        exact ⟨Nat.le_refl _, hy⟩
    · rintro ⟨⟨hlen, hx⟩, rest, hf, hr⟩
      match hnamed : named f.name ms with
      | [] =>
        rw [hnamed] at hx
        exact ⟨(none, rest), ⟨.inl ⟨hnamed, rfl⟩, hf⟩, Slots.close_cons_eq_ok.mpr ⟨hx, hr⟩⟩
      | [a] =>
        rw [hnamed] at hx
        exact ⟨(some x, rest), ⟨.inr ⟨rfl, a, x, hnamed, hx, rfl⟩, hf⟩, Slots.close_cons_eq_ok.mpr ⟨rfl, hr⟩⟩
      | _ :: _ :: _ =>
        rw [hnamed] at hlen
        simp at hlen

theorem ofItems_eq_ok {k : Kind} : ∀ {i : Nat} {fs : List Field} {rs : List Reading} {r : Record Node fs},
    Record.ofItems k i fs rs = .ok r ↔
      rs.length ≤ fs.length ∧ Stands (fun (a : Reading) s x => a s = .ok x) (fun i _ => rs[i]?) fs r
  | i, [], [], r => by simp [Record.ofItems, Stands]
  | i, [], a :: rs, r => by simp [Record.ofItems]
  | i, f :: fs, [], (x, r) => by
    have ih : Record.ofItems k (i + 1) fs [] = .ok r ↔ _ := ofItems_eq_ok
    simp only [Record.ofItems, Stands, Field.Stands, List.length_nil, Nat.zero_le, true_and, List.getElem?_nil]
      at ih ⊢
    rw [← ih]
    cases f.shape.absent? Node with
    | none => simp
    | some y =>
      simp only [bind_eq_ok, Except.ok.injEq, Prod.mk.injEq, Option.some.injEq]
      constructor
      · rintro ⟨r', hr, rfl, rfl⟩
        exact ⟨rfl, hr⟩
      · rintro ⟨rfl, hr⟩
        exact ⟨r, hr, rfl, rfl⟩
  | i, f :: fs, a :: rs, (x, r) => by
    have ih : Record.ofItems k (i + 1) fs rs = .ok r ↔ _ := ofItems_eq_ok
    simp only [Record.ofItems, Stands, Field.Stands, List.length_cons, Nat.add_le_add_iff_right,
      List.getElem?_cons_zero, List.getElem?_cons_succ, bind_eq_ok, Except.ok.injEq, Prod.mk.injEq]
    constructor
    · rintro ⟨y, hy, r', hr, rfl, rfl⟩
      obtain ⟨hl, hst⟩ := ih.mp hr
      exact ⟨hl, hy, hst⟩
    · rintro ⟨hl, hx, hst⟩
      exact ⟨x, hx, r, ih.mpr ⟨hl, hst⟩, rfl, rfl⟩

end Record

/-! ## Values -/

theorem map_snd_indexed {α : Type} (name : String) (ms : List (String × α)) :
    (indexed name ms).map Prod.snd = named name ms := by
  have h : ∀ n, ((ms.zipIdx n).filter (·.1.1 = name)).map (fun m => m.1.2) = named name ms := by
    induction ms with
    | nil => intro n; rfl
    | cons m ms ih =>
      intro n
      have := ih (n + 1)
      rw [named_cons, ← this, List.zipIdx_cons, List.filter_cons]
      by_cases hm : m.1 = name
      · simp [hm, named]
      · simp [hm, named]
  rw [← h 0, indexed, List.map_map]
  rfl

theorem mem_indexed {α : Type} {name : String} {ms : List (String × α)} {j : Nat} {a : α} :
    (j, a) ∈ indexed name ms ↔ ms[j]? = some (name, a) := by
  simp only [indexed, List.mem_map, List.mem_filter, decide_eq_true_eq, Prod.mk.injEq]
  constructor
  · rintro ⟨⟨⟨k, b⟩, i⟩, ⟨hm, rfl⟩, rfl, rfl⟩
    exact List.mem_zipIdx_iff_getElem?.mp hm
  · intro h
    exact ⟨((name, a), j), ⟨List.mem_zipIdx_iff_getElem?.mpr h, rfl⟩, rfl, rfl⟩

namespace Json.Value

/-- Where the field at a place is found: its index and value. In a list, `offset` items stand before the fields. -/
def entry (offset : Nat) : Value → Nat → Field → Option (Nat × Value)
  | .obj ms, _, f => (indexed f.name ms).head?
  | .arr vs, i, _ => vs[i + offset]?.map (i + offset, ·)
  | _, _, _ => none

/-- No field is repeated, and no item is left over. -/
def Fits (offset : Nat) (fs : List Field) : Value → Prop
  | .obj ms => ∀ f ∈ fs, (named f.name ms).length ≤ 1
  | .arr vs => vs.length ≤ fs.length + offset
  | _ => False

end Json.Value

def Kind.Told (k : Kind) (t : Value) : Prop :=
  (∃ name, t = .str name ∧ k = .ofName name) ∨ ∃ n : Nat, t = .num (.int n) ∧ k = .ofNumber n

def Json.Value.Tells (k : Kind) : Value → Prop
  | .obj ms => ∃ t, named "type" ms = [t] ∧ k.Told t
  | .arr vs => ∃ t, vs.head? = some t ∧ k.Told t
  | _ => False

section

variable {ν : Type}

/-- A value gives the contents of fields, where `leaf` says what the value of a field stands for. -/
def Record.Of (leaf : (s : Shape) → Pointer → Value → s.Carrier ν → Prop) (π : Pointer) (offset : Nat) (v : Value)
    (fs : List Field) (r : Record ν fs) : Prop :=
  v.Fits offset fs ∧ Record.Stands (fun a s x => leaf s (π ++ [a.1]) a.2 x) (v.entry offset) fs r

variable (N : Pointer → Value → ν → Prop)

namespace Shape

def Plain : (s : Shape) → Pointer → Value → s.Carrier ν → Prop
  | kind, _, v, k => Kind.Told k v
  | nothing, _, v, _ => v = .null ∨ v = .obj []
  | node, π, v, x => N π v x
  | optionalNode, π, v, o => (v = .null ∧ o = none) ∨ ∃ x, N π v x ∧ o = some x
  | nodes, π, v, xs => ∃ vs, v = .arr vs ∧ Each (fun i => N (π ++ [i])) vs xs
  | optionalNodes, π, v, xs => ∃ vs, v = .arr vs ∧ Each (fun i => N (π ++ [i])) vs xs
  | declarator, _, _, _ => False
  | accessors, π, v, as =>
    ∃ ms bs, v = .obj ms ∧ Each (fun i m b => b.1 = .ofKey m.1 ∧ N (π ++ [i]) m.2 b.2) ms bs ∧ as = bindAll bs
  | modifiers, _, v, o =>
    (v = .null ∧ o = none) ∨ ∃ tokens : List String, v = .arr (tokens.map .str) ∧ o = some (tokens.map .ofToken)
  | blockKind, _, v, b =>
    (∃ name, v = .str name ∧ b = .ofName name) ∨
      ∃ name w, v = .obj [(name, w)] ∧ (w = .null ∨ w = .obj []) ∧ b = .ofName name
  | text, _, v, s => v = .str s
  | literal, _, v, x => x = v.canonical

def Means : (s : Shape) → Pointer → Value → s.Carrier ν → Prop
  | declarator, π, v, d => Record.Of (Plain N) π 0 v Declarator.fields d.toRecord
  | s, π, v, x => s.Plain N π v x

theorem means_eq_plain {s : Shape} (hs : s ≠ .declarator) : s.Means N = s.Plain N := by
  cases s <;> first | rfl | exact absurd rfl hs

end Shape

/-- A value stands for a form, where `N` says what the values of the children stand for. -/
def Form.Means (v : Value) (f : Form ν) : Prop :=
  ∃ (k : Kind) (r : Record ν k.fields), f = .ofRecord k r ∧ v.Tells k ∧ Record.Of (Shape.Means N) [] 1 v k.fields r

end

/-! ## Reading -/

theorem Kind.fields_nodup (k : Kind) : (k.fields.map Field.name).Nodup := by
  cases k <;> decide

theorem Kind.type_not_mem_fields (k : Kind) : "type" ∉ k.fields.map Field.name := by
  cases k <;> decide

theorem Declarator.fields_nodup : (Declarator.fields.map Field.name).Nodup := by
  decide

theorem Declarator.shape_ne : ∀ f ∈ Declarator.fields, f.shape ≠ .declarator := by
  decide

namespace Reading

theorem ofValues_eq_map (vs : List Value) : ofValues vs = vs.map ofValue := by
  induction vs with
  | nil => rfl
  | cons v vs ih => rw [ofValues, ih, List.map_cons]

theorem ofMemberValues_eq_map (ms : List (String × Value)) :
    ofMemberValues ms = ms.map fun m => (m.1, ofValue m.2) := by
  induction ms with
  | nil => rfl
  | cons m ms ih => rw [ofMemberValues, ih, List.map_cons]

theorem named_ofMemberValues (name : String) (ms : List (String × Value)) :
    named name (ofMemberValues ms) = (named name ms).map ofValue := by
  rw [ofMemberValues_eq_map, named, named, List.filter_map, List.map_map, List.map_map]
  rfl

theorem kindOfMembers_eq_ok {k : Kind} : ∀ {seen : Option Kind} {ms : List (String × Reading)},
    kindOfMembers seen ms = .ok k ↔ (seen = some k ∧ named "type" ms = []) ∨
      (seen = none ∧ ∃ a, named "type" ms = [a] ∧ a .kind = .ok k)
  | none, [] => by simp [kindOfMembers, named]
  | some j, [] => by simp [kindOfMembers, named]
  | seen, (name, value) :: ms => by
    by_cases hname : name = "type"
    · subst hname
      rw [named_cons, named_self]
      cases seen with
      | some j => simp [kindOfMembers]
      | none =>
        simp only [kindOfMembers, if_true, bind_eq_ok, kindOfMembers_eq_ok, List.singleton_append, reduceCtorEq,
          false_and, false_or, true_and, or_false, Option.some.injEq, List.cons.injEq]
        constructor
        · rintro ⟨j, hj, rfl, hms⟩
          exact ⟨value, ⟨rfl, hms⟩, hj⟩
        · rintro ⟨a, ⟨rfl, hms⟩, ha⟩
          exact ⟨k, ha, rfl, hms⟩
    · have hskip : kindOfMembers seen ((name, value) :: ms) = kindOfMembers seen ms := by
        cases seen <;> simp [kindOfMembers, hname]
      rw [named_cons, named_ne hname, List.nil_append, hskip]
      exact kindOfMembers_eq_ok

theorem accessors_eq_ok {as : List (Accessor × Node)} : ∀ {found : List (Accessor × Node)}
    {ms : List (String × Reading)}, accessors found ms = .ok as ↔
      ∃ bs : List (Accessor × Node), Each (fun _ m b => b.1 = .ofKey m.1 ∧ m.2 .node = .ok b.2) ms bs ∧
        as = bs.foldl (fun found b => b.1.bind b.2 found) found
  | found, [] => by
    simp only [accessors, Except.ok.injEq]
    constructor
    · rintro rfl
      exact ⟨[], each_nil, rfl⟩
    · rintro ⟨bs, hbs, rfl⟩
      cases bs with
      | nil => rfl
      | cons => exact absurd hbs not_each_nil
  | found, (key, value) :: ms => by
    simp only [accessors, bind_eq_ok, accessors_eq_ok]
    constructor
    · rintro ⟨body, hbody, bs, hbs, rfl⟩
      exact ⟨(.ofKey key, body) :: bs, each_cons.mpr ⟨⟨rfl, hbody⟩, hbs⟩, rfl⟩
    · rintro ⟨bs, hbs, rfl⟩
      cases bs with
      | nil => exact absurd hbs not_each_cons
      | cons b bs =>
        obtain ⟨⟨hb, hbody⟩, hbs⟩ := each_cons.mp hbs
        exact ⟨b.2, hbody, bs, hbs, by rw [← hb]; rfl⟩

end Reading

section

variable {leaf : (s : Shape) → Pointer → Value → s.Carrier Node → Prop} {fs : List Field} {r : Record Node fs}

theorem Record.ofMembers_iff (hn : (fs.map Field.name).Nodup)
    (hleaf : ∀ f ∈ fs, ∀ π w x, Reading.ofValue w f.shape = .ok x ↔ leaf f.shape π w x) (π : Pointer) (offset : Nat)
    (ms : List (String × Value)) :
    Record.ofMembers fs (Reading.ofMemberValues ms) = .ok r ↔ Record.Of leaf π offset (.obj ms) fs r := by
  rw [Record.ofMembers_eq_ok hn, Record.Of]
  refine and_congr (by simp only [Reading.named_ofMemberValues, List.length_map, Value.Fits]) ?_
  refine Record.stands_congr fun i f hf x => ?_
  rw [Reading.named_ofMemberValues, ← map_snd_indexed, List.map_map, List.head?_map, Value.entry]
  cases (indexed f.name ms).head? with
  | none => exact Iff.rfl
  | some a => exact hleaf f hf _ a.2 x

theorem Record.ofItems_iff (hleaf : ∀ f ∈ fs, ∀ π w x, Reading.ofValue w f.shape = .ok x ↔ leaf f.shape π w x)
    (π : Pointer) (kind : Kind) (i : Nat) (before vs : List Value) :
    Record.ofItems kind i fs (Reading.ofValues vs) = .ok r ↔
      Record.Of leaf π before.length (.arr (before ++ vs)) fs r := by
  rw [Record.ofItems_eq_ok, Record.Of, Reading.ofValues_eq_map]
  refine and_congr (by simp only [List.length_map, Value.Fits, List.length_append]; omega) ?_
  refine Record.stands_congr fun j f hf x => ?_
  have hj : (before ++ vs)[j + before.length]? = vs[j]? := by simp [List.getElem?_append_right]
  rw [List.getElem?_map, Value.entry, hj]
  cases vs[j]? with
  | none => exact Iff.rfl
  | some w => exact hleaf f hf _ w x

end

def Node.Read (_ : Pointer) (v : Value) (n : Node) : Prop :=
  Node.ofValue v = .ok n

namespace Reading

theorem map_eq_ok {ε α β : Type} {f : α → β} {e : Except ε α} {b : β} :
    f <$> e = .ok b ↔ ∃ a, e = .ok a ∧ b = f a := by
  cases e with
  | error => exact ⟨fun h => (nomatch h), fun ⟨_, h, _⟩ => (nomatch h)⟩
  | ok a =>
    constructor
    · intro h
      cases h
      exact ⟨a, rfl, rfl⟩
    · rintro ⟨_, h, rfl⟩
      cases h
      rfl

theorem ofValue_nothing {v : Value} {x : Unit} : ofValue v .nothing = .ok x ↔ v = .null ∨ v = .obj [] := by
  cases v with
  | obj ms => cases ms <;> simp [ofValue, ofMembers, ofMemberValues, refuse]
  | arr vs => simp [ofValue, ofItems, refuse]
  | _ => simp [ofValue, ofScalar, refuse]

theorem ofValue_text {v : Value} {x : String} : ofValue v .text = .ok x ↔ v = .str x := by
  cases v with
  | obj ms => simp [ofValue, ofMembers, refuse]
  | arr vs => simp [ofValue, ofItems, refuse]
  | _ => simp [ofValue, ofScalar, refuse]

theorem ofValue_kind {v : Value} {k : Kind} : ofValue v .kind = .ok k ↔ k.Told v := by
  unfold Kind.Told
  cases v with
  | obj ms => simp [ofValue, ofMembers, refuse]
  | arr vs => simp [ofValue, ofItems, refuse]
  | str s => simp [ofValue, ofScalar, eq_comm]
  | num n =>
    cases n with
    | float x => simp [ofValue, ofScalar, refuse]
    | int z =>
      cases z with
      | ofNat n =>
        simp only [ofValue, ofScalar, Except.ok.injEq, reduceCtorEq, false_and, exists_false, false_or,
          Value.num.injEq, Number.int.injEq]
        exact ⟨fun h => ⟨n, rfl, h.symm⟩, fun ⟨m, hm, hk⟩ => by cases hm; exact hk.symm⟩
      | negSucc n => simp [ofValue, ofScalar, refuse]
  | _ => simp [ofValue, ofScalar, refuse]

theorem ofValue_modifiers {v : Value} {o : Option (List Modifier)} : ofValue v .modifiers = .ok o ↔
    (v = .null ∧ o = none) ∨
      ∃ tokens : List String, v = .arr (tokens.map .str) ∧ o = some (tokens.map .ofToken) := by
  cases v with
  | arr vs =>
    simp only [ofValue, ofItems, bind_eq_ok, mapM_eq_ok, ofValues_eq_map, each_map_left]
    constructor
    · rintro ⟨tokens, ht, h⟩
      have hvs := each_eq_map.mp (ht.mono fun _ _ _ => ofValue_text.mp)
      cases h
      exact .inr ⟨tokens, by rw [hvs], rfl⟩
    · rintro (⟨h, -⟩ | ⟨tokens, h, rfl⟩)
      · cases h
      · cases h
        refine ⟨tokens, Each.mono (fun _ _ _ => ofValue_text.mpr) (each_eq_map.mpr rfl), rfl⟩
  | obj ms => simp [ofValue, ofMembers, refuse]
  | null => simp [ofValue, ofScalar, eq_comm]
  | _ => simp [ofValue, ofScalar, refuse]

theorem ofValue_blockKind {v : Value} {b : BlockKind} : ofValue v .blockKind = .ok b ↔
    (∃ name, v = .str name ∧ b = .ofName name) ∨
      ∃ name w, v = .obj [(name, w)] ∧ (w = .null ∨ w = .obj []) ∧ b = .ofName name := by
  cases v with
  | str s => simp [ofValue, ofScalar, eq_comm]
  | obj ms =>
    match ms with
    | [] => simp [ofValue, ofMembers, ofMemberValues, blockKind]
    | [(name, w)] =>
      simp only [ofValue, ofMembers, ofMemberValues, blockKind, bind_eq_ok]
      constructor
      · rintro ⟨_, hw, h⟩
        cases h
        exact .inr ⟨name, w, rfl, ofValue_nothing.mp hw, rfl⟩
      · rintro (⟨_, h, -⟩ | ⟨_, _, h, hw, rfl⟩)
        · cases h
        · cases h
          exact ⟨(), ofValue_nothing.mpr hw, rfl⟩
    | _ :: _ :: _ => simp [ofValue, ofMembers, ofMemberValues, blockKind]
  | arr vs => simp [ofValue, ofItems, refuse]
  | _ => simp [ofValue, ofScalar, refuse]

theorem ofValue_nodes {v : Value} {xs : List Node} {π : Pointer} : ofValue v .nodes = .ok xs ↔
    ∃ vs, v = .arr vs ∧ Each (fun i => Node.Read (π ++ [i])) vs xs := by
  cases v with
  | arr vs =>
    simp only [ofValue, ofItems, mapM_eq_ok, ofValues_eq_map, each_map_left, Value.arr.injEq, exists_eq_left']
    exact Iff.rfl
  | obj ms => simp [ofValue, ofMembers, refuse]
  | _ => simp [ofValue, ofScalar, refuse]

theorem ofValue_optionalNodes {v : Value} {xs : List Node} {π : Pointer} : ofValue v .optionalNodes = .ok xs ↔
    ∃ vs, v = .arr vs ∧ Each (fun i => Node.Read (π ++ [i])) vs xs := by
  cases v with
  | arr vs =>
    rw [← ofValue_nodes]
    simp only [ofValue, ofItems]
  | obj ms => simp [ofValue, ofMembers, refuse]
  | _ => simp [ofValue, ofScalar, refuse]

theorem ofValue_accessors {v : Value} {as : List (Accessor × Node)} {π : Pointer} : ofValue v .accessors = .ok as ↔
    ∃ ms bs, v = .obj ms ∧ Each (fun i m b => b.1 = .ofKey m.1 ∧ Node.Read (π ++ [i]) m.2 b.2) ms bs ∧
      as = bindAll bs := by
  cases v with
  | obj ms =>
    simp only [ofValue, ofMembers, accessors_eq_ok, ofMemberValues_eq_map, each_map_left, Value.obj.injEq]
    constructor
    · rintro ⟨bs, hbs, rfl⟩
      exact ⟨ms, bs, rfl, hbs, rfl⟩
    · rintro ⟨_, bs, rfl, hbs, rfl⟩
      exact ⟨bs, hbs, rfl⟩
  | arr vs => simp [ofValue, ofItems, refuse]
  | _ => simp [ofValue, ofScalar, refuse]

theorem ofValue_optionalNode {v : Value} {o : Option Node} {π : Pointer} : ofValue v .optionalNode = .ok o ↔
    (v = .null ∧ o = none) ∨ ∃ x, Node.Read π v x ∧ o = some x := by
  unfold Node.Read Node.ofValue
  cases v with
  | arr vs => simp [ofValue, ofItems, map_eq_ok]
  | obj ms => simp [ofValue, ofMembers, map_eq_ok]
  | null => simp [ofValue, ofScalar, refuse, eq_comm]
  | _ => simp [ofValue, ofScalar, refuse]

theorem ofValue_plain {s : Shape} (hs : s ≠ .declarator) (π : Pointer) (v : Value) (x : s.Carrier Node) :
    ofValue v s = .ok x ↔ s.Plain Node.Read π v x := by
  cases s with
  | kind => exact ofValue_kind
  | nothing => exact ofValue_nothing
  | node => exact Iff.rfl
  | optionalNode => exact ofValue_optionalNode
  | nodes => exact ofValue_nodes
  | optionalNodes => exact ofValue_optionalNodes
  | declarator => exact absurd rfl hs
  | accessors => exact ofValue_accessors
  | modifiers => exact ofValue_modifiers
  | blockKind => exact ofValue_blockKind
  | text => exact ofValue_text
  | literal =>
    unfold Shape.Plain
    cases v <;> simp [ofValue, ofItems, ofMembers, ofScalar, eq_comm, Value.canonical]

theorem ofValue_declarator {π : Pointer} {v : Value} {d : Declarator Node} :
    ofValue v .declarator = .ok d ↔ Record.Of (Shape.Plain Node.Read) π 0 v Declarator.fields d.toRecord := by
  have hleaf : ∀ f ∈ Declarator.fields, ∀ π w x, ofValue w f.shape = .ok x ↔ f.shape.Plain Node.Read π w x :=
    fun f hf π w x => ofValue_plain (Declarator.shape_ne f hf) π w x
  have hrecord : ∀ e : Except Mismatch (Record Node Declarator.fields),
      Declarator.ofRecord <$> e = .ok d ↔ e = .ok d.toRecord := by
    intro e
    rw [map_eq_ok]
    exact ⟨fun ⟨r, hr, hd⟩ => by rw [hd]; exact hr, fun h => ⟨_, h, rfl⟩⟩
  cases v with
  | obj ms => exact (hrecord _).trans (Record.ofMembers_iff Declarator.fields_nodup hleaf π 0 ms)
  | arr vs => exact (hrecord _).trans (Record.ofItems_iff hleaf π .declarator 0 [] vs)
  | _ => simp [ofValue, ofScalar, refuse, Record.Of, Value.Fits]

theorem ofValue_eq_ok (s : Shape) (π : Pointer) (v : Value) (x : s.Carrier Node) :
    ofValue v s = .ok x ↔ s.Means Node.Read π v x := by
  by_cases hs : s = .declarator
  · subst hs
    exact ofValue_declarator
  · rw [ofValue_plain hs π, Shape.means_eq_plain Node.Read hs]

end Reading

/-- A value is read as a tree exactly if it stands for its form. -/
theorem Node.ofValue_eq_ok {v : Value} {n : Node} : Node.ofValue v = .ok n ↔ Form.Means Node.Read v n.form := by
  obtain ⟨f⟩ := n
  have hleaf (k : Kind) : ∀ f ∈ k.fields, ∀ π w x, Reading.ofValue w f.shape = .ok x ↔
      f.shape.Means Node.Read π w x :=
    fun f _ π w x => Reading.ofValue_eq_ok f.shape π w x
  unfold Form.Means Node.ofValue
  cases v with
  | obj ms =>
    simp only [Reading.ofValue, Reading.ofMembers, Reading.nodeOfMembers, bind_eq_ok, Reading.kindOfMembers_eq_ok,
      reduceCtorEq, false_and, false_or, true_and, Reading.named_ofMemberValues, Value.Tells]
    constructor
    · rintro ⟨k, ⟨a, ha, hk⟩, r, hr, hf⟩
      cases hf
      obtain ⟨t, ht, rfl⟩ := List.map_eq_singleton_iff.mp ha
      exact ⟨k, r, rfl, ⟨t, ht, Reading.ofValue_kind.mp hk⟩,
        (Record.ofMembers_iff k.fields_nodup (hleaf k) [] 1 ms).mp hr⟩
    · rintro ⟨k, r, rfl, ⟨t, ht, hk⟩, hr⟩
      exact ⟨k, ⟨_, by rw [ht]; rfl, Reading.ofValue_kind.mpr hk⟩, r,
        (Record.ofMembers_iff k.fields_nodup (hleaf k) [] 1 ms).mpr hr, rfl⟩
  | arr vs =>
    cases vs with
    | nil => simp [Reading.ofValue, Reading.ofItems, Reading.ofValues, Reading.nodeOfItems, Value.Tells]
    | cons t vs =>
      simp only [Reading.ofValue, Reading.ofItems, Reading.ofValues, Reading.nodeOfItems, bind_eq_ok, Value.Tells,
        List.head?_cons, Option.some.injEq, exists_eq_left']
      constructor
      · rintro ⟨k, hk, r, hr, hf⟩
        cases hf
        exact ⟨k, r, rfl, Reading.ofValue_kind.mp hk, (Record.ofItems_iff (hleaf k) [] k 0 [t] vs).mp hr⟩
      · rintro ⟨k, r, rfl, hk, hr⟩
        exact ⟨k, Reading.ofValue_kind.mpr hk, r, (Record.ofItems_iff (hleaf k) [] k 0 [t] vs).mpr hr, rfl⟩
  | _ => simp [Reading.ofValue, Reading.ofScalar, Reading.refuse, Value.Tells]

end SharpTree
