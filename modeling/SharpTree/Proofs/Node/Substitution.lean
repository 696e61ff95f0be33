import SharpTree.Proofs.Node.Layer
import SharpTree.Proofs.Node.Position

/-!
# Exchanging the value of a node

Each child of a node has its value at some pointer inside the value of the node,
and no two children have it at the same. If another value is put there, the new
value stands for the same form with another child. From child to child this gives
the pointer to the value of any node of a tree (`Node.ReadFrom`).
-/

namespace SharpTree

open Json (Value Pointer)
open Json.Value (named)

variable {ν μ : Type}

/-! ## Members and items -/

theorem zipIdx_modify {α : Type} (as : List α) (j : Nat) (g : α → α) :
    (as.modify j g).zipIdx = as.zipIdx.map fun a => if a.2 = j then (g a.1, a.2) else a := by
  apply List.ext_getElem?
  intro i
  rw [List.getElem?_zipIdx, List.getElem?_modify, List.getElem?_map, List.getElem?_zipIdx]
  by_cases h : j = i
  · subst h
    cases as[j]? <;> simp
  · have h' : ¬ i = j := fun e => h e.symm
    cases as[i]? <;> simp [h, h']

theorem indexed_modify {α : Type} (name : String) (ms : List (String × α)) (j : Nat) (u : α) :
    indexed name (ms.modify j fun m => (m.1, u)) =
      (indexed name ms).map fun e => if e.1 = j then (j, u) else e := by
  have hname (m : (String × α) × Nat) : (if m.2 = j then ((m.1.1, u), m.2) else m).1.1 = m.1.1 := by
    split <;> rfl
  have hentry (m : (String × α) × Nat) : (fun m : (String × α) × Nat => (m.2, m.1.2))
      (if m.2 = j then ((m.1.1, u), m.2) else m) = if m.2 = j then (j, u) else (m.2, m.1.2) := by
    split
    · rename_i h
      rw [h]
    · rfl
  unfold indexed
  rw [zipIdx_modify, List.filter_map, List.map_map, List.map_map]
  simp only [Function.comp_def, hname, hentry]

theorem named_modify {ms : List (String × Value)} {name other : String} {j : Nat} {w : Value}
    (hj : ms[j]? = some (other, w)) (hne : other ≠ name) (u : Value) :
    named name (ms.modify j fun m => (m.1, u)) = named name ms := by
  have hsame : ∀ e ∈ indexed name ms, (if e.1 = j then (j, u) else e) = e := by
    intro e he
    apply if_neg
    intro h
    have hm : ms[e.1]? = some (name, e.2) := mem_indexed.mp he
    rw [h, hj] at hm
    cases hm
    exact hne rfl
  rw [← map_snd_indexed, ← map_snd_indexed name ms, indexed_modify, List.map_congr_left hsame, List.map_id']

namespace Json.Value

theorem entry_setChild (v : Value) (offset i : Nat) (f : Field) (j : Nat) (u : Value) :
    (v.setChild j u).entry offset i f = (v.entry offset i f).map fun e => if e.1 = j then (j, u) else e := by
  cases v with
  | obj ms =>
    simp only [setChild, entry]
    rw [indexed_modify, List.head?_map]
  | arr vs =>
    simp only [setChild, entry, List.getElem?_set]
    by_cases h : j = i + offset
    · subst h
      cases hi : vs[i + offset]? with
      | none => simpa using hi
      | some w =>
        obtain ⟨hlt, -⟩ := List.getElem?_eq_some_iff.mp hi
        simp [hlt]
    · have h' : ¬ i + offset = j := fun e => h e.symm
      cases vs[i + offset]? <;> simp [h, h']
  | _ => rfl

theorem fits_setChild {v : Value} {offset : Nat} {fs : List Field} (h : v.Fits offset fs) (j : Nat) (u : Value) :
    (v.setChild j u).Fits offset fs := by
  cases v with
  | obj ms =>
    intro f hf
    have hlen := h f hf
    rw [← map_snd_indexed, List.length_map] at hlen ⊢
    rwa [indexed_modify, List.length_map]
  | arr vs =>
    have hlen : vs.length ≤ fs.length + offset := h
    simpa [setChild, Fits] using hlen
  | _ => exact h

theorem entry_inj {v w w' : Value} {offset i i' j : Nat} {fs : List Field} {f f' : Field}
    (hn : (fs.map Field.name).Nodup) (hf : fs[i]? = some f) (hf' : fs[i']? = some f')
    (h : v.entry offset i f = some (j, w)) (h' : v.entry offset i' f' = some (j, w')) : i = i' := by
  cases v with
  | obj ms =>
    have hm : ms[j]? = some (f.name, w) := mem_indexed.mp (List.mem_of_mem_head? h)
    have hm' : ms[j]? = some (f'.name, w') := mem_indexed.mp (List.mem_of_mem_head? h')
    have hname : f.name = f'.name := congrArg Prod.fst (Option.some.inj (hm.symm.trans hm'))
    have hi : i < (fs.map Field.name).length := by
      rw [List.length_map]
      exact (List.getElem?_eq_some_iff.mp hf).1
    apply (List.getElem?_inj hi hn).mp
    rw [List.getElem?_map, List.getElem?_map, hf, hf', Option.map_some, Option.map_some, hname]
  | arr vs =>
    obtain ⟨a, -, e⟩ := Option.map_eq_some_iff.mp h
    obtain ⟨a', -, e'⟩ := Option.map_eq_some_iff.mp h'
    have hj : i + offset = j := congrArg Prod.fst e
    have hj' : i' + offset = j := congrArg Prod.fst e'
    omega
  | _ => cases h

/-- The part at an index is the value of a field, and not the tag. -/
def FieldAt (v : Value) (j : Nat) : Prop :=
  ∃ i f w, f.name ≠ "type" ∧ v.entry 1 i f = some (j, w)

theorem Tells.setChild {v : Value} {k : Kind} {j : Nat} (h : v.Tells k) (hj : v.FieldAt j) (u : Value) :
    (v.setChild j u).Tells k := by
  obtain ⟨i, f, w, hf, he⟩ := hj
  cases v with
  | obj ms =>
    have hm : ms[j]? = some (f.name, w) := mem_indexed.mp (List.mem_of_mem_head? he)
    obtain ⟨t, ht, hk⟩ := h
    exact ⟨t, by rw [named_modify hm hf, ht], hk⟩
  | arr vs =>
    obtain ⟨a, -, e⟩ := Option.map_eq_some_iff.mp he
    cases e
    obtain ⟨t, ht, hk⟩ := h
    refine ⟨t, ?_, hk⟩
    cases vs with
    | nil => cases ht
    | cons v vs => exact ht
  | _ => cases h

end Json.Value

/-! ## Labels -/

/-- A child that is labelled with the pointer to its value. -/
def Labelled (N : Pointer → Value → ν → Prop) (π : Pointer) (w : Value) (q : Pointer × ν) : Prop :=
  q.1 = π ∧ N π w q.2

section

variable {N : Pointer → Value → ν → Prop}

theorem Each.label {α β γ : Type} {k : γ → β} {as : List α} {bs : List β} {R : Nat → α → β → Prop}
    {S : Nat → α → γ → Prop} (e : Each R as bs) (label : Nat → β → γ) (hk : ∀ i b, k (label i b) = b)
    (h : ∀ i a b, R i a b → S i a (label i b)) : ∃ cs, cs.map k = bs ∧ Each S as cs := by
  refine ⟨bs.mapIdx label, ?_, ?_, ?_⟩
  · rw [Form.map_mapIdx]
    simp only [hk]
    exact (Form.mapIdx_const id bs).trans (List.map_id bs)
  · rw [List.length_mapIdx, e.1]
  · intro i a c ha hc
    rw [List.getElem?_mapIdx] at hc
    obtain ⟨b, hb, rfl⟩ := Option.map_eq_some_iff.mp hc
    exact h i a b (e.2 i a b ha hb)

theorem Shape.Plain.label {s : Shape} {π : Pointer} {v : Value} {y : s.Carrier ν} (hy : s.Plain N π v y) :
    ∃ x : s.Carrier (Pointer × ν), s.map Prod.snd x = y ∧ s.Plain (Labelled N) π v x := by
  have hlist {vs : List Value} {ys : List ν} (e : Each (fun i => N (π ++ [i])) vs ys) :
      ∃ xs : List (Pointer × ν), xs.map Prod.snd = ys ∧ Each (fun i => Labelled N (π ++ [i])) vs xs :=
    e.label (fun i c => (π ++ [i], c)) (fun _ _ => rfl) fun i w c hc => ⟨rfl, hc⟩
  cases s with
  | node => exact ⟨(π, y), rfl, rfl, hy⟩
  | optionalNode =>
    obtain ⟨hv, rfl⟩ | ⟨c, hc, rfl⟩ := hy
    · exact ⟨none, rfl, .inl ⟨hv, rfl⟩⟩
    · exact ⟨some (π, c), rfl, .inr ⟨(π, c), ⟨rfl, hc⟩, rfl⟩⟩
  | nodes =>
    obtain ⟨vs, hv, e⟩ := hy
    obtain ⟨xs, hxs, e'⟩ := hlist e
    exact ⟨xs, hxs, vs, hv, e'⟩
  | optionalNodes =>
    obtain ⟨vs, hv, e⟩ := hy
    obtain ⟨xs, hxs, e'⟩ := hlist e
    exact ⟨xs, hxs, vs, hv, e'⟩
  | accessors =>
    obtain ⟨ms, bs, rfl, e, rfl⟩ := hy
    obtain ⟨cs, rfl, e'⟩ := e.label (k := fun c : Accessor × (Pointer × ν) => (c.1, c.2.2))
      (S := fun i m c => c.1 = .ofKey m.1 ∧ Labelled N (π ++ [i]) m.2 c.2)
      (fun i b => (b.1, (π ++ [i], b.2))) (fun _ _ => rfl) fun i m b ⟨hkey, hb⟩ => ⟨hkey, rfl, hb⟩
    exact ⟨bindAll cs, (bindAll_map Prod.snd cs).symm, ms, cs, rfl, e', rfl⟩
  | declarator => exact hy.elim
  | _ => exact ⟨y, rfl, hy⟩

theorem Record.stands_label {α : Type} {h : μ → ν} {reads : α → (s : Shape) → s.Carrier ν → Prop}
    (reads' : α → (s : Shape) → s.Carrier μ → Prop) : ∀ {fs : List Field} {r : Record ν fs}
    {entry : Nat → Field → Option α}, Record.Stands reads entry fs r →
    (∀ f ∈ fs, ∀ a y, reads a f.shape y → ∃ x, f.shape.map h x = y ∧ reads' a f.shape x) →
    ∃ r', Record.map h fs r' = r ∧ Record.Stands reads' entry fs r'
  | [], _, _, _, _ => ⟨(), rfl, trivial⟩
  | f :: fs, (y, rest), entry, ⟨hy, hrest⟩, hl => by
    obtain ⟨rest', hmap, hrest'⟩ := stands_label reads' hrest fun g hg => hl g (List.mem_cons_of_mem _ hg)
    have hx : ∃ x, f.shape.map h x = y ∧ f.Stands reads' x (entry 0 f) := by
      cases he : entry 0 f with
      | none =>
        rw [he] at hy
        have habs : (f.shape.absent? μ).map (f.shape.map h) = some y := by
          rw [← Shape.map_absent?]
          exact hy
        obtain ⟨x, hx, hxy⟩ := Option.map_eq_some_iff.mp habs
        exact ⟨x, hxy, hx⟩
      | some a =>
        rw [he] at hy
        exact hl f List.mem_cons_self a y hy
    obtain ⟨x, rfl, hx⟩ := hx
    exact ⟨(x, rest'), by rw [Record.map, hmap], hx, hrest'⟩

theorem Record.Of.label {leaf : (s : Shape) → Pointer → Value → s.Carrier ν → Prop}
    (leaf' : (s : Shape) → Pointer → Value → s.Carrier (Pointer × ν) → Prop) {π : Pointer} {offset : Nat}
    {v : Value} {fs : List Field} {r : Record ν fs} (hr : Record.Of leaf π offset v fs r)
    (hl : ∀ f ∈ fs, ∀ ρ w y, leaf f.shape ρ w y → ∃ x, f.shape.map Prod.snd x = y ∧ leaf' f.shape ρ w x) :
    ∃ r', Record.map Prod.snd fs r' = r ∧ Record.Of leaf' π offset v fs r' := by
  obtain ⟨r', hmap, hst⟩ := Record.stands_label (fun a s x => leaf' s (π ++ [a.1]) a.2 x) hr.2
    fun f hf a y hy => hl f hf _ a.2 y hy
  exact ⟨r', hmap, hr.1, hst⟩

theorem Shape.Means.label {s : Shape} {π : Pointer} {v : Value} {y : s.Carrier ν} (hy : s.Means N π v y) :
    ∃ x : s.Carrier (Pointer × ν), s.map Prod.snd x = y ∧ s.Means (Labelled N) π v x := by
  by_cases hs : s = .declarator
  · subst hs
    obtain ⟨r, hr, hof⟩ := Record.Of.label (Plain (Labelled N)) hy fun f _ ρ w x hx => Plain.label hx
    exact ⟨Declarator.ofRecord r, congrArg Declarator.ofRecord hr, hof⟩
  · rw [Shape.means_eq_plain N hs] at hy
    rw [Shape.means_eq_plain (Labelled N) hs]
    exact hy.label

theorem Form.Means.label {v : Value} {f : Form ν} (hf : Form.Means N v f) :
    ∃ g : Form (Pointer × ν), g.map Prod.snd = f ∧ Form.Means (Labelled N) v g := by
  obtain ⟨k, r, rfl, hk, hr⟩ := hf
  obtain ⟨r', hr', hof⟩ := hr.label (Shape.Means (Labelled N)) fun f _ ρ w x hx => Shape.Means.label hx
  refine ⟨.ofRecord k r', ?_, k, r', rfl, hk, hof⟩
  rw [Form.map_ofRecord, hr']

/-! ## Exchange -/

/-- What the labelled children stand for after the value at a label was exchanged. -/
def Swapped (N : Pointer → Value → ν → Prop) (ρ : Pointer) (u : Value) (π : Pointer) (w : Value)
    (q : Pointer × ν) : Prop :=
  q.1 = π ∧ if π = ρ then w = u else N π w q.2

theorem Labelled.swapped {π ρ : Pointer} {w : Value} {q : Pointer × ν} (h : Labelled N π w q) (hne : π ≠ ρ)
    (u : Value) : Swapped N ρ u π w q :=
  ⟨h.1, by rw [if_neg hne]; exact h.2⟩

theorem Each.modify {α β : Type} {R S : Nat → α → β → Prop} {as : List α} {bs : List β} (e : Each R as bs) {i : Nat}
    {g : α → α} (hi : ∀ a b, R i a b → S i (g a) b) (ho : ∀ k a b, k ≠ i → R k a b → S k a b) :
    Each S (as.modify i g) bs := by
  refine ⟨by rw [List.length_modify, e.1], ?_⟩
  intro k a b ha hb
  rw [List.getElem?_modify] at ha
  obtain ⟨a', ha', rfl⟩ := Option.map_eq_some_iff.mp ha
  have hR := e.2 k a' b ha' hb
  by_cases h : i = k
  · subst h
    simpa using hi a' b hR
  · simpa [h] using ho k a' b (fun e => h e.symm) hR

theorem Shape.Plain.swap {s : Shape} {π : Pointer} {v : Value} {x : s.Carrier (Pointer × ν)}
    (hx : s.Plain (Labelled N) π v x) {q : Pointer × ν} (hq : q ∈ s.nodesIn x) :
    ∃ ρ w, v.at? ρ = some w ∧ q.1 = π ++ ρ ∧ N (π ++ ρ) w q.2 ∧
      ∀ u, s.Plain (Swapped N (π ++ ρ) u) π (v.replace ρ u) x := by
  have hhere {q : Pointer × ν} (h : Labelled N π v q) : q.1 = π ++ [] ∧ N (π ++ []) v q.2 ∧
      ∀ u, Swapped N (π ++ []) u π u q := by
    rw [List.append_nil]
    exact ⟨h.1, h.2, fun u => ⟨h.1, by rw [if_pos rfl]⟩⟩
  have hne {i k : Nat} (h : k ≠ i) : π ++ [k] ≠ π ++ [i] := by
    intro e
    exact h (List.singleton_inj.mp (List.append_cancel_left e))
  have hlist {vs : List Value} {xs : List (Pointer × ν)} (e : Each (fun i => Labelled N (π ++ [i])) vs xs)
      (h : q ∈ xs) : ∃ i w, vs[i]? = some w ∧ q.1 = π ++ [i] ∧ N (π ++ [i]) w q.2 ∧
        ∀ u, Each (fun k => Swapped N (π ++ [i]) u (π ++ [k])) (vs.set i u) xs := by
    obtain ⟨i, w, hw, hlabel, hN⟩ := e.exists_right h
    refine ⟨i, w, hw, hlabel, hN, ?_⟩
    intro u
    rw [List.set_eq_modify]
    apply e.modify
    · intro a b hb
      exact ⟨hb.1, by rw [if_pos rfl]⟩
    · intro k a b hk hb
      exact hb.swapped (hne hk) u
  cases s with
  | node =>
    cases List.mem_singleton.mp hq
    exact ⟨[], v, rfl, hhere hx⟩
  | optionalNode =>
    obtain ⟨-, rfl⟩ | ⟨c, hc, rfl⟩ := hx
    · cases hq
    · cases List.mem_singleton.mp hq
      obtain ⟨hlabel, hN, hu⟩ := hhere hc
      exact ⟨[], v, rfl, hlabel, hN, fun u => .inr ⟨_, hu u, rfl⟩⟩
  | nodes =>
    obtain ⟨vs, rfl, e⟩ := hx
    obtain ⟨i, w, hw, hlabel, hN, hu⟩ := hlist e hq
    refine ⟨[i], w, by rw [Value.at?_singleton]; exact hw, hlabel, hN, fun u => ⟨vs.set i u, ?_, hu u⟩⟩
    simp [Value.replace, Value.child?, hw, Value.setChild]
  | optionalNodes =>
    obtain ⟨vs, rfl, e⟩ := hx
    obtain ⟨i, w, hw, hlabel, hN, hu⟩ := hlist e hq
    refine ⟨[i], w, by rw [Value.at?_singleton]; exact hw, hlabel, hN, fun u => ⟨vs.set i u, ?_, hu u⟩⟩
    simp [Value.replace, Value.child?, hw, Value.setChild]
  | accessors =>
    obtain ⟨ms, bs, rfl, e, rfl⟩ := hx
    obtain ⟨b, hb, rfl⟩ := List.mem_map.mp hq
    obtain ⟨i, m, hm, -, hlabel, hN⟩ := e.exists_right (mem_of_mem_bindAll hb)
    have hchild : (Value.obj ms).child? i = some m.2 := by
      rw [Value.child?, hm, Option.map_some]
    refine ⟨[i], m.2, by rw [Value.at?_singleton, hchild], hlabel, hN, ?_⟩
    intro u
    refine ⟨ms.modify i fun m => (m.1, u), bs, ?_, ?_, rfl⟩
    · simp [Value.replace, hchild, Value.setChild]
    · apply e.modify
      · intro a b hb
        exact ⟨hb.1, hb.2.1, by rw [if_pos rfl]⟩
      · intro k a b hk hb
        exact ⟨hb.1, hb.2.swapped (hne hk) u⟩
  | declarator => exact hx.elim
  | _ => cases hq

theorem Record.Of.exists_entry {leaf : (s : Shape) → Pointer → Value → s.Carrier ν → Prop} {π : Pointer}
    {offset : Nat} {v : Value} {fs : List Field} {r : Record ν fs} (hr : Record.Of leaf π offset v fs r) {i : Nat}
    {e : Record.Entry ν} (he : (Record.entries fs r)[i]? = some e) {q : ν} (hq : q ∈ e.1.shape.nodesIn e.2) :
    ∃ j w, v.entry offset i e.1 = some (j, w) ∧ leaf e.1.shape (π ++ [j]) w e.2 := by
  have hst := Record.stands_iff.mp hr.2 i e he
  cases hv : v.entry offset i e.1 with
  | none =>
    rw [hv] at hst
    rw [Shape.nodesIn_absent? hst] at hq
    cases hq
  | some a =>
    rw [hv] at hst
    exact ⟨a.1, a.2, rfl, hst⟩

/-- The other fields have their values below other indices, so they are not touched. -/
theorem Record.Of.swap {leaf : (s : Shape) → Pointer → Value → s.Carrier (Pointer × ν) → Prop}
    (leaf' : Pointer → Value → (s : Shape) → Pointer → Value → s.Carrier (Pointer × ν) → Prop) {π : Pointer}
    {offset : Nat}
    {v : Value} {fs : List Field} {r : Record (Pointer × ν) fs} (hr : Record.Of leaf π offset v fs r)
    (hn : (fs.map Field.name).Nodup) {q : Pointer × ν} (hq : q ∈ Record.gather Shape.nodesIn fs r)
    (hhere : ∀ f ∈ fs, ∀ ρ w x, leaf f.shape ρ w x → q ∈ f.shape.nodesIn x →
      ∃ σ c, w.at? σ = some c ∧ q.1 = ρ ++ σ ∧ N (ρ ++ σ) c q.2 ∧ ∀ u, leaf' (ρ ++ σ) u f.shape ρ (w.replace σ u) x)
    (hother : ∀ f ∈ fs, ∀ ρ w x σ u, leaf f.shape ρ w x → ¬ ρ <+: σ → leaf' σ u f.shape ρ w x) :
    ∃ f ∈ fs, ∃ i j w σ c, v.entry offset i f = some (j, w) ∧ w.at? σ = some c ∧ q.1 = π ++ j :: σ ∧
      N (π ++ j :: σ) c q.2 ∧
        ∀ u, Record.Of (leaf' (π ++ j :: σ) u) π offset (v.setChild j (w.replace σ u)) fs r := by
  obtain ⟨e, he, hqe⟩ := List.mem_flatMap.mp hq
  obtain ⟨i, hi⟩ := List.getElem?_of_mem he
  have hf := Record.mem_of_entries he
  obtain ⟨j, w, hv, hleaf⟩ := hr.exists_entry hi hqe
  obtain ⟨σ, c, hc, hlabel, hN, hu⟩ := hhere e.1 hf _ w e.2 hleaf hqe
  rw [List.append_assoc, List.singleton_append] at hlabel hN hu
  refine ⟨e.1, hf, i, j, w, σ, c, hv, hc, hlabel, hN, ?_⟩
  intro u
  refine ⟨Value.fits_setChild hr.1 j _, Record.stands_iff.mpr ?_⟩
  intro i' e' hi'
  have hst := Record.stands_iff.mp hr.2 i' e' hi'
  rw [Value.entry_setChild]
  cases hv' : v.entry offset i' e'.1 with
  | none =>
    rw [hv'] at hst
    exact hst
  | some b =>
    obtain ⟨j', w'⟩ := b
    rw [hv'] at hst
    by_cases hj : j' = j
    · subst hj
      have hii := Value.entry_inj hn (Record.field_of_entries hi) (Record.field_of_entries hi') hv hv'
      subst hii
      cases hi.symm.trans hi'
      rw [Option.map_some, if_pos rfl]
      exact hu u
    · have hnp : ¬ π ++ [j'] <+: π ++ j :: σ := by
        intro hp
        rw [List.prefix_append_right_inj] at hp
        obtain ⟨t, ht⟩ := hp
        exact hj (List.cons.inj ht).1
      rw [Option.map_some, if_neg hj]
      exact hother e'.1 (Record.mem_of_entries (List.mem_of_getElem? hi')) _ w' e'.2 _ u hst hnp

theorem Shape.Plain.swap_other {s : Shape} {π σ : Pointer} {v : Value} {x : s.Carrier (Pointer × ν)}
    (hx : s.Plain (Labelled N) π v x) (hσ : ¬ π <+: σ) (u : Value) : s.Plain (Swapped N σ u) π v x := by
  have ht := hx.transfer (N := Swapped N σ u) (h := id) fun ρ w q _ hq => hq.swapped (fun e => hσ ⟨ρ, e⟩) u
  rwa [Shape.map_id] at ht

theorem Shape.Means.swap_other {s : Shape} {π σ : Pointer} {v : Value} {x : s.Carrier (Pointer × ν)}
    (hx : s.Means (Labelled N) π v x) (hσ : ¬ π <+: σ) (u : Value) : s.Means (Swapped N σ u) π v x := by
  have ht := hx.transfer (N := Swapped N σ u) (h := id) fun ρ w q _ hq => hq.swapped (fun e => hσ ⟨ρ, e⟩) u
  rwa [Shape.map_id] at ht

theorem Shape.Means.swap {s : Shape} {π : Pointer} {v : Value} {x : s.Carrier (Pointer × ν)}
    (hx : s.Means (Labelled N) π v x) {q : Pointer × ν} (hq : q ∈ s.nodesIn x) :
    ∃ ρ w, v.at? ρ = some w ∧ q.1 = π ++ ρ ∧ N (π ++ ρ) w q.2 ∧
      ∀ u, s.Means (Swapped N (π ++ ρ) u) π (v.replace ρ u) x := by
  by_cases hs : s = .declarator
  · subst hs
    have hgather : q ∈ Record.gather nodesIn Declarator.fields x.toRecord := by
      simpa [Record.gather, Record.entries, nodesIn, Declarator.toRecord, Declarator.children] using hq
    obtain ⟨f, -, i, j, w, σ, c, hv, hc, hlabel, hN, hu⟩ := Record.Of.swap (N := N)
      (fun σ u => Plain (Swapped N σ u)) hx Declarator.fields_nodup hgather
      (fun f _ ρ w y hy hq => Plain.swap hy hq) fun f _ ρ w y σ u hy hσ => Plain.swap_other hy hσ u
    have hchild := Value.child?_of_entry hv
    refine ⟨j :: σ, c, by rw [Value.at?, hchild, Option.bind_some, hc], hlabel, hN, ?_⟩
    intro u
    rw [Value.replace, hchild]
    exact hu u
  · rw [Shape.means_eq_plain _ hs] at hx
    obtain ⟨ρ, w, hw, hlabel, hN, hu⟩ := hx.swap hq
    refine ⟨ρ, w, hw, hlabel, hN, ?_⟩
    intro u
    rw [Shape.means_eq_plain _ hs]
    exact hu u

theorem Form.Means.swap {v : Value} {g : Form (Pointer × ν)} (hg : Form.Means (Labelled N) v g) {q : Pointer × ν}
    (hq : q ∈ g.children) : ∃ j ρ w, v.FieldAt j ∧ v.at? (j :: ρ) = some w ∧ q.1 = j :: ρ ∧ N (j :: ρ) w q.2 ∧
      ∀ u, Form.Means (Swapped N (j :: ρ) u) (v.replace (j :: ρ) u) g := by
  obtain ⟨k, r, rfl, hk, hr⟩ := hg
  obtain ⟨f, hf, i, j, w, σ, c, hv, hc, hlabel, hN, hu⟩ := hr.swap (N := N)
    (fun σ u => Shape.Means (Swapped N σ u)) k.fields_nodup (Form.mem_children_ofRecord.mp hq)
    (fun f _ ρ w y hy hq => Shape.Means.swap hy hq) fun f _ ρ w y σ u hy hσ => Shape.Means.swap_other hy hσ u
  have hname : f.name ≠ "type" := by
    intro e
    exact k.type_not_mem_fields (e ▸ List.mem_map_of_mem hf)
  have hfield : v.FieldAt j := ⟨i, f, w, hname, hv⟩
  have hchild := Value.child?_of_entry hv
  refine ⟨j, σ, c, hfield, by rw [Value.at?, hchild, Option.bind_some, hc], hlabel, hN, ?_⟩
  intro u
  rw [Value.replace, hchild]
  exact ⟨k, r, rfl, hk.setChild hfield _, hu u⟩

/-! ## No two children share a label -/

theorem Each.nodup_labels {α β : Type} {R : Nat → α → β → Prop} {as : List α} {bs : List β} (e : Each R as bs)
    (label : β → Pointer) {π : Pointer} (h : ∀ i a b, R i a b → label b = π ++ [i]) : (bs.map label).Nodup := by
  apply List.pairwise_iff_getElem.mpr
  intro i j hi hj hij
  rw [List.length_map] at hi hj
  have hlabel (k : Nat) (hk : k < bs.length) : label bs[k] = π ++ [k] := by
    have hk' : k < as.length := e.1 ▸ hk
    exact h k as[k] bs[k] (e.2 k _ _ (List.getElem?_eq_getElem hk') (List.getElem?_eq_getElem hk))
  rw [List.getElem_map, List.getElem_map, hlabel i hi, hlabel j hj]
  intro heq
  have hlast : [i] = [j] := List.append_cancel_left heq
  cases hlast
  exact Nat.lt_irrefl i hij

theorem Shape.Plain.nodup_labels {s : Shape} {π : Pointer} {v : Value} {x : s.Carrier (Pointer × ν)}
    (hx : s.Plain (Labelled N) π v x) : ((s.nodesIn x).map Prod.fst).Nodup := by
  cases s with
  | optionalNode =>
    obtain ⟨-, rfl⟩ | ⟨c, hc, rfl⟩ := hx
    · exact List.nodup_nil
    · exact List.nodup_singleton _
  | node => exact List.nodup_singleton _
  | nodes =>
    obtain ⟨vs, -, e⟩ := hx
    exact e.nodup_labels Prod.fst fun i w q hq => hq.1
  | optionalNodes =>
    obtain ⟨vs, -, e⟩ := hx
    exact e.nodup_labels Prod.fst fun i w q hq => hq.1
  | accessors =>
    obtain ⟨ms, bs, -, e, rfl⟩ := hx
    have hlabels : (bs.map fun b => b.2.1).Nodup := e.nodup_labels (fun b => b.2.1) fun i m b hb => hb.2.1
    -- those that are bound have different keys, so they are different
    have hbound : (bindAll bs).Nodup := List.Nodup.of_map Prod.fst nodup_bindAll
    have hmap : ((bindAll bs).map fun b => b.2.1).Nodup := by
      apply List.Nodup.map_on _ hbound
      intro b hb c hc heq
      exact List.inj_on_of_nodup_map hlabels (mem_of_mem_bindAll hb) (mem_of_mem_bindAll hc) heq
    rw [nodesIn, List.map_map]
    exact hmap
  | declarator => exact hx.elim
  | _ => exact List.nodup_nil

theorem Record.Of.nodup_labels {leaf : (s : Shape) → Pointer → Value → s.Carrier (Pointer × ν) → Prop} {π : Pointer}
    {offset : Nat} {v : Value} {fs : List Field} {r : Record (Pointer × ν) fs} (hr : Record.Of leaf π offset v fs r)
    (hn : (fs.map Field.name).Nodup)
    (hl : ∀ f ∈ fs, ∀ ρ w x, leaf f.shape ρ w x →
      ((f.shape.nodesIn x).map Prod.fst).Nodup ∧ ∀ q ∈ f.shape.nodesIn x, ρ <+: q.1) :
    ((Record.gather Shape.nodesIn fs r).map Prod.fst).Nodup := by
  rw [Record.gather, List.map_flatMap, List.nodup_flatMap]
  constructor
  · intro e he
    rcases hr.field he with h | ⟨j, w, -, h⟩
    · rw [Shape.nodesIn_absent? h]
      exact List.nodup_nil
    · exact (hl e.1 (Record.mem_of_entries he) _ _ _ h).1
  · -- labels below different entries differ
    apply List.pairwise_iff_getElem.mpr
    intro i j hi hj hij
    have hgi := List.getElem?_eq_getElem hi
    have hgj := List.getElem?_eq_getElem hj
    intro σ hσ hσ'
    obtain ⟨p, hp, rfl⟩ := List.mem_map.mp hσ
    obtain ⟨q, hq, hpq⟩ := List.mem_map.mp hσ'
    obtain ⟨a, w, ha, hleafa⟩ := hr.exists_entry hgi hp
    obtain ⟨b, u, hb, hleafb⟩ := hr.exists_entry hgj hq
    have hab : a = b := by
      have hpa := (hl _ (Record.mem_of_entries (List.getElem_mem hi)) _ _ _ hleafa).2 p hp
      have hqb := (hl _ (Record.mem_of_entries (List.getElem_mem hj)) _ _ _ hleafb).2 q hq
      rw [hpq] at hqb
      have heq := (List.prefix_of_prefix_length_le hpa hqb (by simp)).eq_of_length (by simp)
      exact List.singleton_inj.mp (List.append_cancel_left heq)
    subst hab
    have := Value.entry_inj hn (Record.field_of_entries hgi) (Record.field_of_entries hgj) ha hb
    omega

theorem Shape.Plain.prefix_label {s : Shape} {π : Pointer} {v : Value} {x : s.Carrier (Pointer × ν)}
    (hx : s.Plain (Labelled N) π v x) {q : Pointer × ν} (hq : q ∈ s.nodesIn x) : π <+: q.1 := by
  obtain ⟨ρ, w, -, hlabel, -⟩ := hx.swap hq
  exact ⟨ρ, hlabel.symm⟩

theorem Shape.Means.prefix_label {s : Shape} {π : Pointer} {v : Value} {x : s.Carrier (Pointer × ν)}
    (hx : s.Means (Labelled N) π v x) {q : Pointer × ν} (hq : q ∈ s.nodesIn x) : π <+: q.1 := by
  obtain ⟨ρ, w, -, hlabel, -⟩ := hx.swap hq
  exact ⟨ρ, hlabel.symm⟩

theorem Shape.Means.nodup_labels {s : Shape} {π : Pointer} {v : Value} {x : s.Carrier (Pointer × ν)}
    (hx : s.Means (Labelled N) π v x) : ((s.nodesIn x).map Prod.fst).Nodup := by
  by_cases hs : s = .declarator
  · subst hs
    have hr := Record.Of.nodup_labels hx Declarator.fields_nodup fun f _ ρ w y hy =>
      ⟨Plain.nodup_labels hy, fun q hq => Plain.prefix_label hy hq⟩
    simpa [Record.gather, Record.entries, nodesIn, Declarator.toRecord, Declarator.children] using hr
  · rw [Shape.means_eq_plain _ hs] at hx
    exact hx.nodup_labels

theorem Form.Means.nodup_labels {v : Value} {g : Form (Pointer × ν)} (hg : Form.Means (Labelled N) v g) :
    (g.children.map Prod.fst).Nodup := by
  obtain ⟨k, r, rfl, -, hr⟩ := hg
  have hgather := hr.nodup_labels k.fields_nodup fun f _ ρ w x hx =>
    ⟨Shape.Means.nodup_labels hx, fun q hq => Shape.Means.prefix_label hx hq⟩
  exact ((Form.children_perm_ofRecord r).map Prod.fst).nodup_iff.mpr hgather

theorem Form.map_eq_setChild {g : Form (Pointer × ν)} (hn : (g.children.map Prod.fst).Nodup) {i : Nat}
    {q : Pointer × ν} (hq : g.children[i]? = some q) (c : ν) :
    g.map (fun p => if p.1 = q.1 then c else p.2) = (g.map Prod.snd).setChild i c := by
  apply Form.ext_own
  · rw [Form.own_setChild, Form.own_map, Form.own_map]
  · rw [Form.children_setChild, Form.children_map, Form.children_map]
    apply List.ext_getElem?
    intro k
    rw [List.getElem?_map, List.getElem?_set, List.getElem?_map]
    obtain ⟨hi, -⟩ := List.getElem?_eq_some_iff.mp hq
    by_cases hk : i = k
    · subst hk
      rw [hq, Option.map_some, if_pos rfl, if_pos rfl, if_pos (by rw [List.length_map]; exact hi)]
    · cases hp : g.children[k]? with
      | none => simp [hk]
      | some p =>
        have hne : p.1 ≠ q.1 := by
          intro heq
          have hlabels : (g.children.map Prod.fst)[i]? = (g.children.map Prod.fst)[k]? := by
            rw [List.getElem?_map, List.getElem?_map, hq, hp, Option.map_some, Option.map_some, heq]
          exact hk ((List.getElem?_inj (by rw [List.length_map]; exact hi) hn).mp hlabels)
        simp [hk, hne]

/-- A labelled child has its value below a field of the whole, and another value there gives another child. -/
theorem Form.Means.exchange {v : Value} {g : Form (Pointer × ν)} (hg : Form.Means (Labelled N) v g) {i : Nat}
    {π : Pointer} {c : ν} (hq : g.children[i]? = some (π, c)) :
    ∃ j ρ w, π = j :: ρ ∧ v.FieldAt j ∧ v.at? π = some w ∧ N π w c ∧
      ∀ u c', N π u c' → Form.Means N (v.replace π u) ((g.map Prod.snd).setChild i c') := by
  obtain ⟨j, ρ, w, hfield, hw, hlabel, hN, hu⟩ := hg.swap (List.mem_of_getElem? hq)
  cases hlabel
  refine ⟨j, ρ, w, rfl, hfield, hw, hN, ?_⟩
  intro u c' hc'
  rw [← Form.map_eq_setChild hg.nodup_labels hq]
  refine (hu u).transfer ?_
  intro k σ y p _ hp
  obtain ⟨hpk, hp⟩ := hp
  rw [hpk]
  by_cases h : k :: σ = j :: ρ
  · rw [if_pos h] at hp ⊢
    rw [h, hp]
    exact hc'
  · rw [if_neg h] at hp ⊢
    exact hp

theorem Form.Means.unlabel {v : Value} {g : Form (Pointer × ν)} (hg : Form.Means (Labelled N) v g) :
    Form.Means N v (g.map Prod.snd) :=
  hg.transfer fun _ _ _ _ _ hq => hq.2

end

/-! ## Where a node is read from -/

namespace Node

/-- In the tree of a value, the node at a position is read from the part at a pointer. -/
inductive ReadFrom : Value → Position → Pointer → Prop where
  | root (v : Value) : ReadFrom v [] []
  | child {v w : Value} {g : Form (Pointer × Node)} {i : Nat} {c : Node} {p : Position} {π ρ : Pointer}
    (layer : Form.Means (Labelled Read) v g) (label : g.children[i]? = some (π, c)) (part : v.at? π = some w)
    (below : ReadFrom w p ρ) : ReadFrom v (i :: p) (π ++ ρ)

theorem exists_readFrom : ∀ {p : Position} {v : Value} {t m : Node}, ofValue v = .ok t → t.at? p = some m →
    ∃ π, ReadFrom v p π
  | [], v, t, m, ht, hm => ⟨[], .root v⟩
  | i :: p, v, mk f, m, ht, hm => by
    obtain ⟨c, hc, hm⟩ := Option.bind_eq_some_iff.mp hm
    obtain ⟨g, hg, hlayer⟩ := (ofValue_eq_ok.mp ht).label
    rw [children, ← hg, Form.children_map, List.getElem?_map] at hc
    obtain ⟨⟨π, c⟩, hq, rfl⟩ := Option.map_eq_some_iff.mp hc
    obtain ⟨j, σ, w, rfl, -, hw, hcw, -⟩ := hlayer.exchange hq
    obtain ⟨ρ, hρ⟩ := exists_readFrom hcw hm
    exact ⟨_, .child hlayer hq hw hρ⟩

theorem ReadFrom.exchange {v : Value} {p : Position} {π : Pointer} (h : ReadFrom v p π) {t : Node}
    (ht : ofValue v = .ok t) : ∃ w m, v.at? π = some w ∧ t.at? p = some m ∧ ofValue w = .ok m ∧
      ∀ u k, ofValue u = .ok k → ofValue (v.replace π u) = .ok (t.replace p k) := by
  induction h generalizing t with
  | root v => exact ⟨v, t, rfl, rfl, ht, fun u k hu => hu⟩
  | @child v w g i c p π ρ hlayer hq hw hbelow ih =>
    have hv : ofValue v = .ok (mk (g.map Prod.snd)) := ofValue_eq_ok.mpr hlayer.unlabel
    cases hv.symm.trans ht
    have hc : (mk (g.map Prod.snd)).children[i]? = some c := by
      change (g.map Prod.snd).children[i]? = some c
      rw [Form.children_map, List.getElem?_map, hq, Option.map_some]
    obtain ⟨j, σ, w', rfl, -, hw', hcw, hexchange⟩ := hlayer.exchange hq
    cases hw.symm.trans hw'
    obtain ⟨y, m, hy, hm, hmy, hreads⟩ := ih hcw
    refine ⟨y, m, ?_, ?_, hmy, ?_⟩
    · rw [Value.at?_append, hw, Option.bind_some, hy]
    · rw [at?, hc, Option.bind_some, hm]
    · intro u k hu
      rw [Value.replace_append hw, replace, hc]
      exact ofValue_eq_ok.mpr (hexchange _ _ (hreads u k hu))

theorem ReadFrom.field {v : Value} {p : Position} {π : Pointer} (h : ReadFrom v p π) :
    p = [] ∧ π = [] ∨ ∃ j ρ, π = j :: ρ ∧ v.FieldAt j := by
  cases h with
  | root => exact .inl ⟨rfl, rfl⟩
  | child hlayer hq hw hbelow =>
    obtain ⟨j, σ, w', rfl, hfield, -⟩ := hlayer.exchange hq
    exact .inr ⟨j, _, rfl, hfield⟩

theorem exists_place {p : Position} {v : Value} {t m : Node} (ht : ofValue v = .ok t) (hm : t.at? p = some m) :
    ∃ π w, (p = [] ∧ π = [] ∨ ∃ j ρ, π = j :: ρ ∧ v.FieldAt j) ∧ v.at? π = some w ∧ ofValue w = .ok m ∧
      ∀ u m', ofValue u = .ok m' → ofValue (v.replace π u) = .ok (t.replace p m') := by
  obtain ⟨π, h⟩ := exists_readFrom ht hm
  obtain ⟨w, m', hw, hm', hread, hexchange⟩ := h.exchange ht
  cases hm.symm.trans hm'
  exact ⟨π, w, h.field, hw, hread, hexchange⟩

end Node

end SharpTree
