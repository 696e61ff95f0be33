import SharpTree.Proofs.Json.Canonical
import SharpTree.Proofs.Node.Fields

/-!
# Written trees

The value that a tree is written as stands for the tree, if the tree is sound:
its modifiers and accessors are those of their words, no accessor occurs twice,
and its literals are canonical (`Form.means_write`). Every form that is read from
a value is sound (`Form.Means.sound`).
-/

namespace SharpTree

open Json (Value Pointer Number)
open Json.Value (named)

variable {ν : Type}

/-! ## Sound contents -/

def Shape.Sound : (s : Shape) → s.Carrier ν → Prop
  | accessors, as => (as.map Prod.fst).Nodup ∧ ∀ a ∈ as.map Prod.fst, Accessor.ofKey a.key = a
  | modifiers, o => ∀ ms, o = some ms → ∀ m ∈ ms, Modifier.ofToken m.token = m
  | literal, v => v.canonical = v
  | _, _ => True

def Record.Sound (fs : List Field) (r : Record ν fs) : Prop :=
  ∀ e ∈ Record.entries fs r, e.1.shape.Sound e.2

def Form.Sound (f : Form ν) : Prop :=
  Record.Sound f.kind.fields f.toRecord

theorem Form.sound_ofRecord {k : Kind} {r : Record ν k.fields} :
    (Form.ofRecord k r).Sound ↔ Record.Sound k.fields r := by
  cases k <;> exact Iff.rfl

theorem Declarator.sound_field {f : Field} (hf : f ∈ Declarator.fields) (x : f.shape.Carrier ν) :
    f.shape.Sound x := by
  simp only [Declarator.fields, List.mem_cons, List.not_mem_nil, or_false] at hf
  rcases hf with rfl | rfl | rfl <;> trivial

/-! ## Written members -/

theorem named_append {α : Type} (name : String) (ms ns : List (String × α)) :
    named name (ms ++ ns) = named name ms ++ named name ns := by
  simp [named]

theorem named_of_not_mem {α : Type} {name : String} {ms : List (String × α)} (h : name ∉ ms.map Prod.fst) :
    named name ms = [] := by
  simp only [named, List.map_eq_nil_iff, List.filter_eq_nil_iff, decide_eq_true_eq]
  intro m hm e
  exact h (e ▸ List.mem_map_of_mem hm)

theorem names_members {name : String} {fs : List Field} {r : Record Value fs}
    (h : name ∈ (Record.members fs r).map Prod.fst) : name ∈ fs.map Field.name := by
  obtain ⟨m, hm, rfl⟩ := List.mem_map.mp h
  obtain ⟨e, he, hname, -⟩ := Record.exists_of_mem_members hm
  exact hname ▸ List.mem_map_of_mem (Record.mem_of_entries he)

theorem indexed_eq_nil {α : Type} {name : String} {ms : List (String × α)} (h : named name ms = []) :
    indexed name ms = [] := by
  rwa [← map_snd_indexed, List.map_eq_nil_iff] at h

theorem indexed_head? {α : Type} {name : String} {before after : List (String × α)} {a : α}
    (h : name ∉ before.map Prod.fst) :
    (indexed name (before ++ (name, a) :: after)).head? = some (before.length, a) := by
  have hb : before.zipIdx.filter (·.1.1 = name) = [] := by
    simp only [List.filter_eq_nil_iff, decide_eq_true_eq]
    intro m hm e
    exact h (e ▸ List.mem_map_of_mem (List.fst_mem_of_mem_zipIdx hm))
  simp [indexed, List.zipIdx_append, hb]

section

variable {leaf : (s : Shape) → Pointer → Value → s.Carrier ν → Prop} {π : Pointer}

/-- What is written for the contents of a field stands for them; if nothing is, they are those of a
field that is left out. -/
def Shape.Returns (leaf : (s : Shape) → Pointer → Value → s.Carrier ν → Prop) (s : Shape) (x : s.Carrier ν)
    (o : Option Value) : Prop :=
  (∀ u, o = some u → ∀ π, leaf s π u x) ∧ (o = none → s.absent? ν = some x)

theorem Shape.returns_some {s : Shape} {x : s.Carrier ν} {u : Value} (h : ∀ π, leaf s π u x) :
    s.Returns leaf x (some u) :=
  ⟨fun _ e π => Option.some.inj e ▸ h π, fun e => (nomatch e)⟩

theorem Shape.returns_none {s : Shape} {x : s.Carrier ν} (h : s.absent? ν = some x) : s.Returns leaf x none :=
  ⟨fun _ e => (nomatch e), fun _ => h⟩

def Record.Returns (leaf : (s : Shape) → Pointer → Value → s.Carrier ν → Prop) : (fs : List Field) → Record ν fs →
    Record Value fs → Prop
  | [], _, _ => True
  | f :: fs, (x, rest), (y, rest') => f.shape.Returns leaf x (f.shape.write y) ∧ Record.Returns leaf fs rest rest'

/-- The induction is on the fields: those that come earlier have left members of other names before. -/
theorem Record.of_members (offset : Nat) : ∀ {fs : List Field} {r : Record ν fs} {w : Record Value fs}
    {before : List (String × Value)}, (fs.map Field.name).Nodup → (∀ f ∈ fs, f.name ∉ before.map Prod.fst) →
    Record.Returns leaf fs r w → Record.Of leaf π offset (.obj (before ++ Record.members fs w)) fs r
  | [], _, _, _, _, _, _ => ⟨fun _ h => (nomatch h), trivial⟩
  | f :: fs, (x, rest), (y, rest'), before, hn, hb, ⟨hx, hrest⟩ => by
    obtain ⟨hf, hfs⟩ := List.nodup_cons.mp hn
    have hb₀ : f.name ∉ before.map Prod.fst := hb f List.mem_cons_self
    have hbs : ∀ g ∈ fs, g.name ∉ before.map Prod.fst := fun g hg => hb g (List.mem_cons_of_mem _ hg)
    have hlater : named f.name (Record.members fs rest') = [] := named_of_not_mem fun h => hf (names_members h)
    rw [Record.members]
    cases hw : f.shape.write y with
    | none =>
      have hnone : named f.name (before ++ Record.members fs rest') = [] := by
        rw [named_append, named_of_not_mem hb₀, hlater, List.append_nil]
      obtain ⟨hfits, hst⟩ := of_members offset hfs hbs hrest
      refine ⟨List.forall_mem_cons.mpr ⟨by simp [hnone], hfits⟩, ?_, hst⟩
      simp only [Value.entry, indexed_eq_nil hnone, List.head?_nil]
      exact hx.2 hw
    | some u =>
      have hnew : ∀ g ∈ fs, g.name ∉ (before ++ [(f.name, u)]).map Prod.fst := by
        intro g hg hm
        rw [List.map_append, List.mem_append] at hm
        rcases hm with hm | hm
        · exact hbs g hg hm
        · have e : g.name = f.name := List.mem_singleton.mp hm
          exact hf (e ▸ List.mem_map_of_mem hg)
      have hone : named f.name (before ++ (f.name, u) :: Record.members fs rest') = [u] := by
        rw [named_append, named_of_not_mem hb₀, named_cons, named_self, hlater]
        rfl
      have hof := of_members offset hfs hnew hrest
      rw [List.append_assoc] at hof
      refine ⟨List.forall_mem_cons.mpr ⟨by simp [hone], hof.1⟩, ?_, hof.2⟩
      simp only [Value.entry, indexed_head? hb₀]
      exact hx.1 u hw _

theorem Record.of_tagged (offset : Nat) {fs : List Field} {r : Record ν fs} {w : Record Value fs} (t : Value)
    (hn : (fs.map Field.name).Nodup) (ht : "type" ∉ fs.map Field.name) (h : Record.Returns leaf fs r w) :
    Record.Of leaf π offset (.obj (("type", t) :: Record.members fs w)) fs r := by
  have hb : ∀ f ∈ fs, f.name ∉ [("type", t)].map Prod.fst := by
    intro f hf hm
    have e : f.name = "type" := List.mem_singleton.mp hm
    exact ht (e ▸ List.mem_map_of_mem hf)
  exact Record.of_members offset hn hb h

end

/-! ## Written forms -/

theorem Kind.told_name (k : Kind) : k.Told (.str k.name) := by
  refine .inl ⟨_, rfl, ?_⟩
  cases k <;> decide

theorem named_type_members (k : Kind) (r : Record Value k.fields) :
    named "type" (("type", .str k.name) :: Record.members k.fields r) = [.str k.name] := by
  have hnone : named "type" (Record.members k.fields r) = [] :=
    named_of_not_mem fun h => k.type_not_mem_fields (names_members h)
  rw [named_cons, named_self, hnone]
  rfl

theorem BlockKind.ofName_name (b : BlockKind) : .ofName b.name = b := by
  cases b <;> decide

section

variable {N : Pointer → Value → ν → Prop} {g : ν → Value}

theorem Shape.returns_plain (s : Shape) (hs : s ≠ .declarator) {x : s.Carrier ν} (hx : s.Sound x)
    (hc : ∀ c ∈ s.nodesIn x, ∀ π, N π (g c) c) : s.Returns (Plain N) x (s.write (s.map g x)) := by
  have hlist (xs : List ν) (h : ∀ c ∈ xs, ∀ π, N π (g c) c) (π : Pointer) :
      Each (fun i => N (π ++ [i])) (xs.map g) xs :=
    each_map_left g |>.mpr (each_self fun c hc _ => h c hc _)
  cases s with
  | kind => exact returns_some fun _ => Kind.told_name x
  | nothing => exact returns_some fun _ => .inl rfl
  | node => exact returns_some fun π => hc x List.mem_cons_self π
  | optionalNode =>
    cases x with
    | none => exact returns_none rfl
    | some c => exact returns_some fun π => .inr ⟨c, hc c List.mem_cons_self π, rfl⟩
  | nodes => exact returns_some fun π => ⟨_, rfl, hlist x hc π⟩
  | optionalNodes => exact returns_some fun π => ⟨_, rfl, hlist x hc π⟩
  | declarator => exact absurd rfl hs
  | accessors =>
    refine returns_some fun π => ⟨_, x, rfl, ?_, (bindAll_of_nodup hx.1).symm⟩
    rw [map, each_map_left, each_map_left]
    exact each_self fun b hb i => ⟨(hx.2 _ (List.mem_map_of_mem hb)).symm, hc _ (List.mem_map_of_mem hb) _⟩
  | modifiers =>
    cases x with
    | none => exact returns_none rfl
    | some ms =>
      have hms : ms.map (Modifier.ofToken ∘ Modifier.token) = ms := by
        conv => rhs; rw [← List.map_id ms]
        exact List.map_congr_left (hx ms rfl)
      exact returns_some fun π => .inr ⟨ms.map Modifier.token, by rw [List.map_map]; rfl, by rw [List.map_map, hms]⟩
  | blockKind => exact returns_some fun _ => .inl ⟨_, rfl, (BlockKind.ofName_name x).symm⟩
  | text => exact returns_some fun _ => rfl
  | literal => exact returns_some fun _ => hx.symm

theorem Record.returns {leaf : (s : Shape) → Pointer → Value → s.Carrier ν → Prop} :
    ∀ {fs : List Field} {r : Record ν fs},
    (∀ e ∈ Record.entries fs r, e.1.shape.Returns leaf e.2 (e.1.shape.write (e.1.shape.map g e.2))) →
    Record.Returns leaf fs r (Record.map g fs r)
  | [], _, _ => trivial
  | _ :: _, (_, _), h => ⟨h _ List.mem_cons_self, Record.returns fun e he => h e (List.mem_cons_of_mem _ he)⟩

theorem Shape.returns_write (s : Shape) {x : s.Carrier ν} (hx : s.Sound x)
    (hc : ∀ c ∈ s.nodesIn x, ∀ π, N π (g c) c) : s.Returns (Means N) x (s.write (s.map g x)) := by
  by_cases hs : s = .declarator
  · subst hs
    have hr :
        Record.Returns (Plain N) Declarator.fields x.toRecord (Record.map g Declarator.fields x.toRecord) := by
      refine Record.returns fun e he => ?_
      have hce : ∀ c ∈ e.1.shape.nodesIn e.2, ∀ π, N π (g c) c := by
        intro c h
        have hg : c ∈ Record.gather nodesIn Declarator.fields x.toRecord := List.mem_flatMap.mpr ⟨e, he, h⟩
        exact hc c (by simpa [Record.gather, Record.entries, nodesIn, Declarator.toRecord, Declarator.children]
          using hg)
      have hf := Record.mem_of_entries he
      exact e.1.shape.returns_plain (Declarator.shape_ne e.1 hf) (Declarator.sound_field hf e.2) hce
    refine returns_some fun π => ?_
    rw [Declarator.members_eq]
    exact Record.of_tagged 0 _ Declarator.fields_nodup (Kind.type_not_mem_fields .declarator) hr
  · have hp := s.returns_plain hs hx hc
    rw [Shape.Returns, Shape.means_eq_plain N hs]
    exact hp

/-- A sound form is what its written value stands for, if the children are. -/
theorem Form.means_write {f : Form ν} (hf : f.Sound) (hc : ∀ c ∈ f.children, ∀ π, N π (g c) c) :
    Form.Means N (f.map g).write f := by
  obtain ⟨k, r, rfl⟩ := f.exists_record
  rw [Form.map_ofRecord, Form.write_ofRecord]
  refine ⟨k, r, rfl, ⟨_, ?_, k.told_name⟩, ?_⟩
  · exact named_type_members k _
  · refine Record.of_tagged 1 _ k.fields_nodup k.type_not_mem_fields ?_
    refine Record.returns fun e he => e.1.shape.returns_write (Form.sound_ofRecord.mp hf e he) fun c h => ?_
    exact hc c (Form.mem_children_ofRecord.mpr (List.mem_flatMap.mpr ⟨e, he, h⟩))

end

/-! ## Soundness of what is read -/

section

variable {N : Pointer → Value → ν → Prop}

theorem Shape.Plain.sound {s : Shape} {π : Pointer} {v : Value} {x : s.Carrier ν} (h : s.Plain N π v x) :
    s.Sound x := by
  cases s with
  | accessors =>
    obtain ⟨ms, bs, -, hbs, rfl⟩ := h
    refine ⟨nodup_bindAll, fun a ha => ?_⟩
    obtain ⟨b, hb, rfl⟩ := List.mem_map.mp ha
    obtain ⟨i, m, -, hm, -⟩ := hbs.exists_right (mem_of_mem_bindAll hb)
    rw [hm, Accessor.key_ofKey]
  | modifiers =>
    rintro ms rfl m hm
    obtain ⟨-, h⟩ | ⟨tokens, -, h⟩ := h
    · cases h
    · cases h
      obtain ⟨t, -, rfl⟩ := List.mem_map.mp hm
      rw [Modifier.token_ofToken]
  | literal =>
    cases h
    exact Value.canonical_canonical v
  | _ => trivial

theorem Shape.Means.sound {s : Shape} {π : Pointer} {v : Value} {x : s.Carrier ν} (h : s.Means N π v x) :
    s.Sound x := by
  by_cases hs : s = .declarator
  · subst hs
    trivial
  · rw [Shape.means_eq_plain N hs] at h
    exact h.sound

theorem Shape.absent?_sound {s : Shape} {x : s.Carrier ν} (h : s.absent? ν = some x) : s.Sound x := by
  cases s <;> cases h <;> simp [Shape.Sound]

theorem Form.Means.sound {v : Value} {f : Form ν} (h : Form.Means N v f) : f.Sound := by
  obtain ⟨k, r, rfl, -, hr⟩ := h
  refine Form.sound_ofRecord.mpr fun e he => ?_
  rcases hr.field he with h | ⟨_, _, _, h⟩
  · exact Shape.absent?_sound h
  · exact h.sound

end

/-! ## Objects without repeated names -/

section

variable {fs : List Field} {ms : List (String × Value)} {name : String} {v : Value} {r : Record ν fs}

theorem named_of_mem (hn : (ms.map Prod.fst).Nodup) (h : (name, v) ∈ ms) : named name ms = [v] := by
  obtain ⟨before, after, rfl⟩ := List.append_of_mem h
  rw [List.map_append, List.map_cons, List.nodup_append, List.nodup_cons] at hn
  obtain ⟨-, ⟨hafter, -⟩, hbefore⟩ := hn
  have hb : name ∉ before.map Prod.fst := fun hb => hbefore _ hb _ List.mem_cons_self rfl
  rw [named_append, named_of_not_mem hb, named_cons, named_self, named_of_not_mem hafter]
  rfl

theorem length_named_le (hn : (ms.map Prod.fst).Nodup) (name : String) : (named name ms).length ≤ 1 := by
  by_cases hname : name ∈ ms.map Prod.fst
  · obtain ⟨⟨_, v⟩, hv, rfl⟩ := List.mem_map.mp hname
    rw [named_of_mem hn hv]
    exact Nat.le_refl 1
  · rw [named_of_not_mem hname]
    exact Nat.zero_le 1

theorem indexed_of_mem (hn : (ms.map Prod.fst).Nodup) (h : (name, v) ∈ ms) : ∃ j, indexed name ms = [(j, v)] := by
  have hnamed := named_of_mem hn h
  rw [← map_snd_indexed] at hnamed
  obtain ⟨⟨j, w⟩, hj, rfl⟩ := List.map_eq_singleton_iff.mp hnamed
  exact ⟨j, hj⟩

theorem exists_of_names {ns : List (String × Value)} (names : ns.map Prod.fst = ms.map Prod.fst) {i : Nat}
    (h : ms[i]? = some (name, v)) : ∃ w, ns[i]? = some (name, w) := by
  have hname := congrArg (·[i]?) names
  simp only [List.getElem?_map, h, Option.map_some] at hname
  obtain ⟨⟨_, w⟩, hw, rfl⟩ := Option.map_eq_some_iff.mp hname
  exact ⟨w, hw⟩

def Field.Found (leaf : (s : Shape) → Pointer → Value → s.Carrier ν → Prop) (ms : List (String × Value)) (f : Field)
    (x : f.shape.Carrier ν) : Prop :=
  (f.name ∉ ms.map Prod.fst ∧ f.shape.absent? ν = some x) ∨ ∃ v, (f.name, v) ∈ ms ∧ ∀ π, leaf f.shape π v x

theorem Record.exists_entries {Q : (f : Field) → f.shape.Carrier ν → Prop} : ∀ {fs : List Field},
    (∀ f ∈ fs, ∃ x, Q f x) → ∃ r : Record ν fs, ∀ e ∈ Record.entries fs r, Q e.1 e.2
  | [], _ => ⟨(), fun _ h => (nomatch h)⟩
  | f :: fs, h => by
    obtain ⟨⟨x, hx⟩, hfs⟩ := List.forall_mem_cons.mp h
    obtain ⟨r, hr⟩ := exists_entries hfs
    exact ⟨(x, r), List.forall_mem_cons.mpr ⟨hx, hr⟩⟩

theorem Record.of_found {leaf : (s : Shape) → Pointer → Value → s.Carrier ν → Prop} (hn : (ms.map Prod.fst).Nodup)
    (h : ∀ e ∈ Record.entries fs r, e.1.Found leaf ms e.2) (π : Pointer) (offset : Nat) :
    Record.Of leaf π offset (.obj ms) fs r := by
  refine ⟨fun f _ => length_named_le hn f.name, Record.stands_iff.mpr fun i e he => ?_⟩
  rw [Value.entry]
  obtain ⟨hno, habsent⟩ | ⟨v, hv, hread⟩ := h e (List.mem_of_getElem? he)
  · rw [indexed_eq_nil (named_of_not_mem hno)]
    exact habsent
  · obtain ⟨j, hj⟩ := indexed_of_mem hn hv
    rw [hj]
    exact hread _

theorem Record.mem_members {w : Record Value fs} {e : Record.Entry Value} {u : Value} (he : e ∈ Record.entries fs w)
    (hu : e.1.shape.write e.2 = some u) : (e.1.name, u) ∈ Record.members fs w := by
  rw [members_eq_filterMap]
  exact List.mem_filterMap.mpr ⟨e, he, by rw [hu, Option.map_some]⟩

theorem Record.nodup_members (hn : (fs.map Field.name).Nodup) (w : Record Value fs) :
    ((Record.members fs w).map Prod.fst).Nodup := by
  induction fs with
  | nil => exact List.nodup_nil
  | cons f fs ih =>
    obtain ⟨y, w⟩ := w
    obtain ⟨hf, hfs⟩ := List.nodup_cons.mp hn
    rw [Record.members]
    cases f.shape.write y with
    | none => exact ih hfs w
    | some u => exact List.nodup_cons.mpr ⟨fun h => hf (names_members h), ih hfs w⟩

end

end SharpTree
