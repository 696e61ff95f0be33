import SharpTree.Proofs.Json.Canonical
import SharpTree.Proofs.Json.Grammar
import SharpTree.Proofs.Node.RoundTrip

/-!
# Texts of one tree

Much of the text of a tree can be changed without changing the tree: blanks, the
order of members, members that are no fields, and the order of members inside a
literal. `Rewritten` is all of this at once, anywhere in a value. Only accessors
keep their order, and tags and fields their names. A text of the rewritten value
is read as the same tree (`parse_rewritten`).
-/

namespace SharpTree

open Json (Value Pointer)
open Json.Value (named)

/-- A value that stands for a shape gives the contents of some fields. -/
inductive Shape.Gathers : Shape → Value → List Field → Prop where
  | node {v : Value} {k : Kind} (h : v.Tells k) : Gathers .node v k.fields
  | declarator (v : Value) : Gathers .declarator v Declarator.fields

def Shape.lead : Shape → Nat
  | node => 1
  | _ => 0

/-- Members in any order, with more members that are neither tags nor fields. -/
def Rearranged (fs : List Field) (ms ns : List (String × Value)) : Prop :=
  ∃ extra, ns.Perm (ms ++ extra) ∧ ∀ m ∈ extra, m.1 ≠ "type" ∧ m.1 ∉ fs.map Field.name

/-- A value of a shape with the members of its nodes, declarators and literals in any order, and more members in its
nodes and declarators. -/
inductive Rewritten : Shape → Value → Value → Prop where
  | refl (s : Shape) (v : Value) : Rewritten s v v
  | object {s : Shape} {fs : List Field} {ms kept ns : List (String × Value)} (gathers : s.Gathers (.obj ms) fs)
      (names : kept.map Prod.fst = ms.map Prod.fst)
      (others : ∀ (i : Nat) name v w, name ∉ fs.map Field.name → ms[i]? = some (name, v) →
        kept[i]? = some (name, w) → w = v)
      (fields : ∀ f ∈ fs, ∀ (i : Nat) v w, ms[i]? = some (f.name, v) → kept[i]? = some (f.name, w) →
        Rewritten f.shape v w)
      (arranged : Rearranged fs kept ns) : Rewritten s (.obj ms) (.obj ns)
  | list {s : Shape} {fs : List Field} {vs ws : List Value} (gathers : s.Gathers (.arr vs) fs)
      (length : vs.length = ws.length) (lead : ∀ i < s.lead, ws[i]? = vs[i]?)
      (items : ∀ (i : Nat) f v w, fs[i]? = some f → vs[i + s.lead]? = some v → ws[i + s.lead]? = some w →
        Rewritten f.shape v w) : Rewritten s (.arr vs) (.arr ws)
  | optionalNode {v w : Value} (h : Rewritten .node v w) : Rewritten .optionalNode v w
  | nodes {vs ws : List Value} (length : vs.length = ws.length)
      (items : ∀ (i : Nat) v w, vs[i]? = some v → ws[i]? = some w → Rewritten .node v w) :
      Rewritten .nodes (.arr vs) (.arr ws)
  | optionalNodes {v w : Value} (h : Rewritten .nodes v w) : Rewritten .optionalNodes v w
  | accessors {ms ns : List (String × Value)} (keys : ns.map Prod.fst = ms.map Prod.fst)
      (bodies : ∀ (i : Nat) m n, ms[i]? = some m → ns[i]? = some n → Rewritten .node m.2 n.2) :
      Rewritten .accessors (.obj ms) (.obj ns)
  | literal {v w : Value} (h : v.Reordered w) : Rewritten .literal v w

/-! ## Members -/

theorem named_perm {α : Type} (name : String) {ms ns : List (String × α)} (h : ms.Perm ns) :
    (named name ms).Perm (named name ns) :=
  (h.filter _).map _

theorem eq_of_perm_of_length_le {α : Type} {as bs : List α} (h : as.Perm bs) (hb : bs.length ≤ 1) : as = bs := by
  cases bs with
  | nil => exact h.eq_nil
  | cons b bs =>
    obtain rfl : bs = [] := List.length_eq_zero_iff.mp (Nat.le_zero.mp (Nat.le_of_succ_le_succ hb))
    exact List.perm_singleton.mp h

section

variable {fs : List Field} {name : String} {ms kept ns : List (String × Value)}

theorem Rearranged.named_eq (h : Rearranged fs ms ns) (hn : (ms.map Prod.fst).Nodup)
    (hname : name = "type" ∨ name ∈ fs.map Field.name) : named name ns = named name ms := by
  obtain ⟨extra, hperm, hextra⟩ := h
  have hnone : name ∉ extra.map Prod.fst := by
    intro hmem
    obtain ⟨m, hm, rfl⟩ := List.mem_map.mp hmem
    exact hname.elim (hextra m hm).1 (hextra m hm).2
  have hnamed := named_perm name hperm
  rw [named_append, named_of_not_mem hnone, List.append_nil] at hnamed
  exact eq_of_perm_of_length_le hnamed (length_named_le hn name)

theorem named_kept (hn : (ms.map Prod.fst).Nodup) (names : kept.map Prod.fst = ms.map Prod.fst)
    (others : ∀ (i : Nat) v w, ms[i]? = some (name, v) → kept[i]? = some (name, w) → w = v) :
    named name kept = named name ms := by
  by_cases hname : name ∈ ms.map Prod.fst
  · obtain ⟨⟨_, v⟩, hv, rfl⟩ := List.mem_map.mp hname
    obtain ⟨i, hi⟩ := List.getElem?_of_mem hv
    obtain ⟨w, hw⟩ := exists_of_names names hi
    rw [named_of_mem hn hv, named_of_mem (names ▸ hn) (List.mem_of_getElem? hw), others i v w hi hw]
  · rw [named_of_not_mem hname, named_of_not_mem (names ▸ hname)]

end

/-! ## Fields -/

def Shape.Follows (s : Shape) (v w : Value) : Prop :=
  ∀ x, Reading.ofValue v s = .ok x → Reading.ofValue w s = .ok x

/-- Two values with the same fields, whose contents follow each other. -/
structure SameFields (offset : Nat) (fs : List Field) (v w : Value) : Prop where
  fits : v.Fits offset fs → w.Fits offset fs
  absent : ∀ (i : Nat) f, fs[i]? = some f → v.entry offset i f = none → w.entry offset i f = none
  present : ∀ (i : Nat) f a, fs[i]? = some f → v.entry offset i f = some a →
    ∃ b, w.entry offset i f = some b ∧ f.shape.Follows a.2 b.2

theorem Record.Of.follow {leaf : (s : Shape) → Pointer → Value → s.Carrier Node → Prop} {π : Pointer} {offset : Nat}
    {v w : Value} {fs : List Field} {r : Record Node fs} (hr : Record.Of leaf π offset v fs r)
    (hleaf : ∀ f ∈ fs, ∀ π w x, Reading.ofValue w f.shape = .ok x ↔ leaf f.shape π w x)
    (h : SameFields offset fs v w) : Record.Of leaf π offset w fs r := by
  refine ⟨h.fits hr.1, Record.stands_iff.mpr fun i e he => ?_⟩
  have hfield := Record.field_of_entries he
  have hst := Record.stands_iff.mp hr.2 i e he
  cases hentry : v.entry offset i e.1 with
  | none =>
    rw [hentry] at hst
    rw [h.absent i e.1 hfield hentry]
    exact hst
  | some a =>
    obtain ⟨b, hb, hfollows⟩ := h.present i e.1 a hfield hentry
    have hmem := List.mem_of_getElem? hfield
    rw [hentry] at hst
    rw [hb]
    exact (hleaf e.1 hmem _ _ _).mp (hfollows _ ((hleaf e.1 hmem _ _ _).mpr hst))

theorem Kind.Told.unique {j k : Kind} {t : Value} (hj : j.Told t) (hk : k.Told t) : j = k := by
  rw [← Reading.ofValue_kind] at hj hk
  exact Except.ok.inj (hj.symm.trans hk)

theorem Json.Value.Tells.unique {j k : Kind} {v : Value} (hj : v.Tells j) (hk : v.Tells k) : j = k := by
  cases v with
  | obj _ | arr _ =>
    obtain ⟨t, ht, hj⟩ := hj
    obtain ⟨u, hu, hk⟩ := hk
    cases ht.symm.trans hu
    exact hj.unique hk
  | _ => cases hj

theorem Shape.Gathers.follows {s : Shape} {fs : List Field} {v w : Value} (h : s.Gathers v fs)
    (htag : ∀ k : Kind, s = .node → v.Tells k → w.Tells k) (hfields : SameFields s.lead fs v w) :
    s.Follows v w := by
  cases h with
  | @node _ k htells =>
    intro n hn
    obtain ⟨k', r, hf, htells', hr⟩ := Node.ofValue_eq_ok.mp hn
    cases htells.unique htells'
    exact Node.ofValue_eq_ok.mpr ⟨k, r, hf, htag k rfl htells,
      hr.follow (fun f _ π u x => Reading.ofValue_eq_ok f.shape π u x) hfields⟩
  | declarator =>
    intro d hd
    have hr : Record.Of (Shape.Plain Node.Read) [] 0 v Declarator.fields d.toRecord :=
      Reading.ofValue_declarator.mp hd
    exact Reading.ofValue_declarator.mpr
      (hr.follow (fun f hf π u x => Reading.ofValue_plain (Declarator.shape_ne f hf) π u x) hfields)

/-! ## Objects and lists -/

theorem SameFields.of_members {fs : List Field} {ms kept ns : List (String × Value)} (offset : Nat)
    (hn : (ms.map Prod.fst).Nodup) (names : kept.map Prod.fst = ms.map Prod.fst) (arranged : Rearranged fs kept ns)
    (fields : ∀ f ∈ fs, ∀ (i : Nat) v w, ms[i]? = some (f.name, v) → kept[i]? = some (f.name, w) →
      f.shape.Follows v w) : SameFields offset fs (.obj ms) (.obj ns) := by
  have hkept : (kept.map Prod.fst).Nodup := names ▸ hn
  have hnamed {f : Field} (hf : f ∈ fs) : named f.name ns = named f.name kept :=
    arranged.named_eq hkept (.inr (List.mem_map_of_mem hf))
  refine ⟨fun _ f hf => ?_, fun i f hf hnone => ?_, fun i f a hf ha => ?_⟩
  · rw [hnamed hf]
    exact length_named_le hkept f.name
  · have hms : named f.name ms = [] := by
      rw [← map_snd_indexed, List.head?_eq_none_iff.mp hnone, List.map_nil]
    have hno : f.name ∉ ms.map Prod.fst := by
      intro hmem
      obtain ⟨⟨_, v⟩, hv, hname⟩ := List.mem_map.mp hmem
      rw [← hname, named_of_mem hn hv] at hms
      cases hms
    have hns : named f.name ns = [] := by
      rw [hnamed (List.mem_of_getElem? hf), named_of_not_mem (names ▸ hno)]
    rw [Value.entry, indexed_eq_nil hns, List.head?_nil]
  · have hi := mem_indexed.mp (List.mem_of_mem_head? ha)
    obtain ⟨w, hw⟩ := exists_of_names names hi
    have hns : named f.name ns = [w] := by
      rw [hnamed (List.mem_of_getElem? hf), named_of_mem hkept (List.mem_of_getElem? hw)]
    rw [← map_snd_indexed] at hns
    obtain ⟨b, hb, rfl⟩ := List.map_eq_singleton_iff.mp hns
    exact ⟨b, by rw [Value.entry, hb, List.head?_cons], fields f (List.mem_of_getElem? hf) a.1 a.2 b.2 hi hw⟩

theorem SameFields.of_items {fs : List Field} {vs ws : List Value} {offset : Nat} (length : vs.length = ws.length)
    (items : ∀ (i : Nat) f v w, fs[i]? = some f → vs[i + offset]? = some v → ws[i + offset]? = some w →
      f.shape.Follows v w) : SameFields offset fs (.arr vs) (.arr ws) := by
  refine ⟨fun h => ?_, fun i f hf hnone => ?_, fun i f a hf ha => ?_⟩
  · rw [Value.Fits, ← length]
    exact h
  · rw [Value.entry, Option.map_eq_none_iff, List.getElem?_eq_none_iff] at hnone ⊢
    exact length ▸ hnone
  · rw [Value.entry, Option.map_eq_some_iff] at ha
    obtain ⟨v, hv, rfl⟩ := ha
    have hlt : i + offset < ws.length := length ▸ (List.getElem?_eq_some_iff.mp hv).1
    have hw := List.getElem?_eq_getElem hlt
    exact ⟨(i + offset, ws[i + offset]), by rw [Value.entry, hw, Option.map_some], items i f v _ hf hv hw⟩

/-! ## Rewriting -/

theorem Each.follow {α β : Type} {R S : Nat → α → β → Prop} {as bs : List α} {xs : List β} (e : Each R as xs)
    (length : as.length = bs.length)
    (h : ∀ (i : Nat) a b x, as[i]? = some a → bs[i]? = some b → R i a x → S i b x) : Each S bs xs := by
  refine ⟨length ▸ e.1, fun i b x hb hx => ?_⟩
  have hlt : i < as.length := length ▸ (List.getElem?_eq_some_iff.mp hb).1
  have ha := List.getElem?_eq_getElem hlt
  exact h i _ b x ha hb (e.2 i _ x ha hx)

theorem Shape.Gathers.type_not_mem {s : Shape} {v : Value} {fs : List Field} (h : s.Gathers v fs) :
    "type" ∉ fs.map Field.name := by
  cases h with
  | @node _ k => exact k.type_not_mem_fields
  | declarator => decide

theorem named_type_of_rearranged {s : Shape} {fs : List Field} {ms kept ns : List (String × Value)}
    (gathers : s.Gathers (.obj ms) fs) (hn : (ms.map Prod.fst).Nodup) (names : kept.map Prod.fst = ms.map Prod.fst)
    (others : ∀ (i : Nat) name v w, name ∉ fs.map Field.name → ms[i]? = some (name, v) → kept[i]? = some (name, w) →
      w = v) (arranged : Rearranged fs kept ns) : named "type" ns = named "type" ms := by
  rw [arranged.named_eq (names ▸ hn) (.inl rfl)]
  exact named_kept hn names fun i v w => others i "type" v w gathers.type_not_mem

theorem Rewritten.follows {s : Shape} {v w : Value} (h : Rewritten s v w) (hv : v.Distinct) : s.Follows v w := by
  induction h with
  | refl s v => exact fun x hx => hx
  | @object s fs ms kept ns gathers names others fields arranged ih =>
    have hn : (ms.map Prod.fst).Nodup := hv [] ms rfl
    refine gathers.follows (fun k _ htells => ?_) (.of_members s.lead hn names arranged fun f hf i v w hi hw => ?_)
    · rw [Value.Tells, named_type_of_rearranged gathers hn names others arranged]
      exact htells
    · exact ih f hf i v w hi hw (hv.child (i := i) (by simp [Value.child?, hi]))
  | @list s fs vs ws gathers length lead items ih =>
    refine gathers.follows (fun k hs htells => ?_) (.of_items length fun i f v w hf hi hw => ?_)
    · subst hs
      rw [Value.Tells, List.head?_eq_getElem?, lead 0 (by decide), ← List.head?_eq_getElem?]
      exact htells
    · exact ih i f v w hf hi hw (hv.child (i := i + s.lead) hi)
  | @optionalNode v w h ih =>
    intro o ho
    obtain ⟨rfl, rfl⟩ | ⟨n, hn, rfl⟩ := (Reading.ofValue_eq_ok .optionalNode [] v o).mp ho
    · -- no object and no list, so nothing has been rewritten
      cases h
      exact ho
    · exact (Reading.ofValue_eq_ok .optionalNode [] w _).mpr (.inr ⟨n, ih hv n hn, rfl⟩)
  | @nodes vs ws length items ih =>
    intro ns hns
    obtain ⟨_, heq, heach⟩ := (Reading.ofValue_eq_ok .nodes [] _ ns).mp hns
    cases heq
    refine (Reading.ofValue_eq_ok .nodes [] _ ns).mpr ⟨ws, rfl, heach.follow length fun i v w n hi hw hn => ?_⟩
    exact ih i v w hi hw (hv.child (i := i) hi) n hn
  | @optionalNodes v w h ih =>
    intro ns hns
    have hsame (u : Value) : Reading.ofValue u .optionalNodes = .ok ns ↔ Reading.ofValue u .nodes = .ok ns :=
      (Reading.ofValue_eq_ok .optionalNodes [] u ns).trans (Reading.ofValue_eq_ok .nodes [] u ns).symm
    exact (hsame w).mpr (ih hv ns ((hsame v).mp hns))
  | @accessors ms ns keys bodies ih =>
    intro as has
    obtain ⟨_, bs, heq, heach, rfl⟩ := (Reading.ofValue_eq_ok .accessors [] _ as).mp has
    cases heq
    have length : ms.length = ns.length := by simpa using (congrArg List.length keys).symm
    refine (Reading.ofValue_eq_ok .accessors [] _ _).mpr
      ⟨ns, bs, rfl, heach.follow length fun i m n b hm hn hb => ?_, rfl⟩
    have hkey := congrArg (·[i]?) keys
    simp only [List.getElem?_map, hm, hn, Option.map_some, Option.some.injEq] at hkey
    rw [hkey]
    exact ⟨hb.1, ih i m n hm hn (hv.child (i := i) (by simp [Value.child?, hm])) b.2 hb.2⟩
  | literal h =>
    intro x hx
    rw [Reading.ofValue_eq_ok _ []] at hx ⊢
    exact hx.trans (Value.canonical_of_reordered h hv).symm

theorem Rewritten.tagged {v w : Value} (h : Rewritten .node v w) (hv : v.Distinct) (htag : v.Tagged) :
    w.Tagged := by
  cases h with
  | refl => exact htag
  | @object _ fs ms kept ns gathers names others fields arranged =>
    rw [Value.Tagged, named_type_of_rearranged gathers (hv [] ms rfl) names others arranged]
    exact htag
  | @list _ fs vs ws gathers length lead items =>
    obtain ⟨s, rest, rfl⟩ := htag
    have hfirst : ws[0]? = some (.str s) := lead 0 (by decide)
    cases ws with
    | nil => cases hfirst
    | cons w ws =>
      cases hfirst
      exact ⟨s, ws, rfl⟩

def identifierValue (name : String) : Value :=
  .obj [("type", .str "Identifier"), ("value", .str name)]

def plainDeclarator : Value :=
  .obj [("varType", identifierValue "int"), ("varName", identifierValue "y")]

end SharpTree
