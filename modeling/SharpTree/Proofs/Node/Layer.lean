import SharpTree.Proofs.Node.Fields

/-!
# The layer of a value

What the values of the children stand for enters the meaning of a value only at
the pointers to these values. So one reading of the children may be exchanged for
another that follows from it there (`Form.Means.transfer`).
-/

namespace SharpTree

open Json (Value Pointer)
open Json.Value (named)

variable {ν μ : Type}

theorem Json.Value.at?_singleton (v : Value) (i : Nat) : v.at? [i] = v.child? i := by
  simp [Value.at?]

section

variable {α β γ : Type} {R : Nat → α → β → Prop} {S : Nat → α → γ → Prop} {k : β → γ} {as : List α}

theorem Each.transfer {bs : List β} (e : Each R as bs) (h : ∀ i a b, as[i]? = some a → R i a b → S i a (k b)) :
    Each S as (bs.map k) := by
  refine ⟨by rw [List.length_map, e.1], fun i a c ha hc => ?_⟩
  rw [List.getElem?_map] at hc
  obtain ⟨b, hb, rfl⟩ := Option.map_eq_some_iff.mp hc
  exact h i a b ha (e.2 i a b ha hb)

end

section

variable {M : Pointer → Value → ν → Prop} {N : Pointer → Value → μ → Prop} {h : ν → μ}

/-- In a shape, the values of nodes stand below the pointer of the whole. -/
theorem Shape.Plain.transfer {s : Shape} {π : Pointer} {v : Value} {x : s.Carrier ν} (hx : s.Plain M π v x)
    (hMN : ∀ ρ w q, v.at? ρ = some w → M (π ++ ρ) w q → N (π ++ ρ) w (h q)) : s.Plain N π v (s.map h x) := by
  have hhere : ∀ q, M π v q → N π v (h q) := fun q hq => by simpa using hMN [] v q rfl (by simpa using hq)
  have hlist {vs : List Value} (hv : v = .arr vs) {xs : List ν} (e : Each (fun i => M (π ++ [i])) vs xs) :
      Each (fun i => N (π ++ [i])) vs (xs.map h) :=
    e.transfer fun i w q hw hq => hMN [i] w q (by rw [Value.at?_singleton, hv]; exact hw) hq
  cases s with
  | node => exact hhere x hx
  | optionalNode =>
    obtain ⟨hv, rfl⟩ | ⟨q, hq, rfl⟩ := hx
    · exact .inl ⟨hv, rfl⟩
    · exact .inr ⟨h q, hhere q hq, rfl⟩
  | nodes =>
    obtain ⟨vs, hv, e⟩ := hx
    exact ⟨vs, hv, hlist hv e⟩
  | optionalNodes =>
    obtain ⟨vs, hv, e⟩ := hx
    exact ⟨vs, hv, hlist hv e⟩
  | accessors =>
    obtain ⟨ms, bs, rfl, e, rfl⟩ := hx
    refine ⟨ms, bs.map fun b : Accessor × ν => (b.1, h b.2), rfl, ?_, (bindAll_map h bs).symm⟩
    refine e.transfer fun i m b hm ⟨hkey, hq⟩ => ⟨hkey, hMN [i] m.2 b.2 ?_ hq⟩
    rw [Value.at?_singleton, Value.child?, hm, Option.map_some]
  | declarator => exact hx
  | _ => exact hx

theorem Field.stands_transfer {α : Type} {reads : α → (s : Shape) → s.Carrier ν → Prop}
    {reads' : α → (s : Shape) → s.Carrier μ → Prop} {f : Field} {x : f.shape.Carrier ν} {o : Option α}
    (hx : f.Stands reads x o) (hr : ∀ a, o = some a → reads a f.shape x → reads' a f.shape (f.shape.map h x)) :
    f.Stands reads' (f.shape.map h x) o := by
  cases o with
  | none =>
    show f.shape.absent? μ = some _
    rw [Shape.map_absent? h, show f.shape.absent? ν = some x from hx, Option.map_some]
  | some a => exact hr a rfl hx

theorem Record.stands_transfer {α : Type} {reads : α → (s : Shape) → s.Carrier ν → Prop}
    {reads' : α → (s : Shape) → s.Carrier μ → Prop} : ∀ {fs : List Field} {r : Record ν fs}
    {entry : Nat → Field → Option α}, Record.Stands reads entry fs r →
    (∀ i, ∀ f ∈ fs, ∀ a x, entry i f = some a → reads a f.shape x → reads' a f.shape (f.shape.map h x)) →
    Record.Stands reads' entry fs (Record.map h fs r)
  | [], _, _, _, _ => trivial
  | f :: _, (x, _), _, ⟨hx, hrest⟩, hr =>
    ⟨Field.stands_transfer hx fun a ha => hr 0 f List.mem_cons_self a x ha,
      stands_transfer hrest fun i g hg => hr (i + 1) g (List.mem_cons_of_mem _ hg)⟩

theorem Record.Of.transfer {leaf : (s : Shape) → Pointer → Value → s.Carrier ν → Prop}
    {leaf' : (s : Shape) → Pointer → Value → s.Carrier μ → Prop} {π : Pointer} {offset : Nat} {v : Value}
    {fs : List Field} {r : Record ν fs} (hr : Record.Of leaf π offset v fs r)
    (hl : ∀ f ∈ fs, ∀ j w x, v.child? j = some w → leaf f.shape (π ++ [j]) w x →
      leaf' f.shape (π ++ [j]) w (f.shape.map h x)) : Record.Of leaf' π offset v fs (Record.map h fs r) :=
  ⟨hr.1, Record.stands_transfer hr.2 fun _ f hf a x ha hx => hl f hf a.1 a.2 x (Value.child?_of_entry ha) hx⟩

theorem Shape.Means.transfer {s : Shape} {π : Pointer} {v : Value} {x : s.Carrier ν} (hx : s.Means M π v x)
    (hMN : ∀ ρ w q, v.at? ρ = some w → M (π ++ ρ) w q → N (π ++ ρ) w (h q)) : s.Means N π v (s.map h x) := by
  by_cases hs : s = .declarator
  · subst hs
    refine Record.Of.transfer (h := h) hx fun f _ j w y hw hy => Shape.Plain.transfer hy fun ρ u q hu hq => ?_
    rw [List.append_assoc] at hq ⊢
    exact hMN (j :: ρ) u q (by simp [Value.at?, hw, hu]) hq
  · rw [Shape.means_eq_plain M hs] at hx
    rw [Shape.means_eq_plain N hs]
    exact hx.transfer hMN

/-- One reading of the children may be exchanged for another that follows from it at the
pointers to their values. -/
theorem Form.Means.transfer {v : Value} {f : Form ν} (hf : Form.Means M v f)
    (hMN : ∀ j ρ w q, v.at? (j :: ρ) = some w → M (j :: ρ) w q → N (j :: ρ) w (h q)) :
    Form.Means N v (f.map h) := by
  obtain ⟨k, r, rfl, hk, hr⟩ := hf
  refine ⟨k, _, Form.map_ofRecord h k r, hk, hr.transfer fun f _ j w x hw hx => hx.transfer fun ρ u q hu hq => ?_⟩
  exact hMN j ρ u q (by simp [Value.at?, hw, hu]) hq

theorem Form.Means.mono {N : Pointer → Value → ν → Prop} {v : Value} {f : Form ν} (hf : Form.Means M v f)
    (hMN : ∀ j ρ w q, v.at? (j :: ρ) = some w → M (j :: ρ) w q → N (j :: ρ) w q) : Form.Means N v f := by
  have := hf.transfer (h := id) hMN
  rwa [Form.map_id] at this

end

end SharpTree
