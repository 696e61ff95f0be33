import Mathlib.Data.List.Nodup
import Mathlib.Data.List.Perm.Basic
import SharpTree.Proofs.CSharp.Composition
import SharpTree.Proofs.CSharp.Placeholders
import SharpTree.Session

/-!
# The order of the warnings

Each warning comes from one part of one node: from the node as a whole, from one
of its modifiers or from the key of one of its accessors. The parts and the
children of a node have their turns in an order that `Form.turns` gives, and a
tree is evaluated turn by turn. So every part that has no translation is warned
about once, and in the order of the turns (`Session.emit_trace`).
-/

namespace SharpTree

variable {ν μ : Type}

/-! ## Parts without a translation -/

/-- A part of a node that may have no translation. -/
inductive Part where
  | whole
  | modifier (index : Nat)
  | key (index : Nat)
deriving DecidableEq

structure LogLine where
  level : Level
  message : String
  details : List (String × Detail)
deriving DecidableEq

def Event.line (e : Event) : LogLine :=
  ⟨e.level, e.message, e.details⟩

def Form.accessors : Form ν → List (Accessor × ν)
  | property _ _ accessors => accessors
  | _ => []

/-- A part of a form has no translation, which is worth a line in a log. -/
inductive Form.Degrades : Form ν → Part → LogLine → Prop where
  | unsupported : Degrades .unsupported .whole ⟨.warn, "unsupported node, emitting placeholder", []⟩
  | modifier {f : Form ν} {i : Nat} {token : String} (other : f.modifiers[i]? = some (.other token)) :
    Degrades f (.modifier i) ⟨.warn, "no C# translation for modifier", [("modifier", .text token)]⟩
  | accessor {f : Form ν} {i : Nat} {a : Accessor} {body : ν} (bound : f.accessors[i]? = some (a, body))
    (not_get : a.key ≠ "get") (not_set : a.key ≠ "set") :
    Degrades f (.key i) ⟨.warn, "non-standard property accessor", [("accessor", .text a.key)]⟩

/-- A part of some node of a tree. -/
structure Origin where
  position : Position
  part : Part
deriving DecidableEq

def Node.Degrades (n : Node) (o : Origin) (line : LogLine) : Prop :=
  ∃ m, n.at? o.position = some m ∧ m.form.Degrades o.part line

/-! ## The order of evaluation -/

inductive Turn (ν : Type) where
  | part (p : Part)
  | child (c : ν)

def Turn.map (g : ν → μ) : Turn ν → Turn μ
  | part p => part p
  | child c => child (g c)

namespace Form

def modifierTurns (ms : Option (List Modifier)) : List (Turn ν) :=
  (ms.getD []).zipIdx.map fun m => .part (.modifier m.2)

def accessorTurns (accessors : List (Accessor × ν)) : List (Turn ν) :=
  accessors.zipIdx.flatMap fun b => [.part (.key b.2), .child b.1.2]

/-- The parts and children of a form in the order in which they are evaluated. -/
def turns : Form ν → List (Turn ν)
  | typeDecl ms name body => modifierTurns ms ++ [.child name, .child body]
  | function ms result name params body =>
    (result.toList ++ params).map .child ++ modifierTurns ms ++ [.child name, .child body]
  | member ms d => modifierTurns ms ++ [.child d]
  | property ms d accessors => accessorTurns accessors ++ modifierTurns ms ++ d.children.map .child
  | call callee args => (args ++ [callee]).map .child
  | unsupported => [.part .whole]
  | f => f.children.map .child

def order (f : Form ν) : List (Turn Nat) :=
  (f.mapIdx fun i _ => i).turns

end Form

namespace Origin

def turn : Origin → Turn Nat
  | ⟨[], p⟩ => .part p
  | ⟨i :: _, _⟩ => .child i

def under (i : Nat) (o : Origin) : Origin :=
  ⟨i :: o.position, o.part⟩

theorem under_inj {i : Nat} {a b : Origin} (h : a.under i = b.under i) : a = b := by
  cases a
  cases b
  cases h
  rfl

end Origin

/-- The first part is evaluated before the second. -/
inductive Node.Before : Node → Origin → Origin → Prop where
  | here {n : Node} {a b : Origin} (turns : [a.turn, b.turn].Sublist n.form.order) : Before n a b
  | inside {n c : Node} {i : Nat} {a b : Origin} (child : n.children[i]? = some c) (before : Before c a b) :
    Before n (a.under i) (b.under i)

/-! ## Turns -/

theorem nodup_map_zipIdx {α β : Type} {g : Nat → β} (hg : Function.Injective g) (as : List α) :
    (as.zipIdx.map fun a => g a.2).Nodup := by
  have h : (as.zipIdx.map fun a => g a.2) = (List.range' 0 as.length).map g := by
    rw [← List.zipIdx_map_snd 0 as, List.map_map]
    rfl
  rw [h, ← List.range_eq_range']
  exact List.nodup_range.map hg

theorem flatMap_zipIdx {α β : Type} {g : α × Nat → List β} {h : α → List β} {as : List α}
    (e : ∀ i a, as[i]? = some a → g (a, i) = h a) : as.zipIdx.flatMap g = as.flatMap h := by
  have hg : as.zipIdx.flatMap g = as.zipIdx.flatMap fun a => h a.1 := by
    apply List.flatMap_congr
    intro a ha
    exact e a.2 a.1 (List.mem_zipIdx_iff_getElem?.mp ha)
  rw [hg, ← List.flatMap_map, List.zipIdx_map_fst]

namespace Form

theorem modifiers_map (g : ν → μ) (f : Form ν) : (f.map g).modifiers = f.modifiers := by
  cases f <;> rfl

theorem accessors_map (g : ν → μ) (f : Form ν) :
    (f.map g).accessors = f.accessors.map fun b => (b.1, g b.2) := by
  cases f <;> rfl

theorem map_modifierTurns (g : ν → μ) (ms : Option (List Modifier)) :
    (modifierTurns ms).map (Turn.map g) = modifierTurns ms := by
  rw [modifierTurns, List.map_map]
  rfl

theorem map_accessorTurns (g : ν → μ) (accessors : List (Accessor × ν)) :
    (accessorTurns accessors).map (Turn.map g) = accessorTurns (accessors.map fun b => (b.1, g b.2)) := by
  rw [accessorTurns, accessorTurns, List.zipIdx_map, List.flatMap_map, List.map_flatMap]
  rfl

theorem map_childTurns (g : ν → μ) (cs : List ν) :
    (cs.map Turn.child).map (Turn.map g) = (cs.map g).map .child := by
  rw [List.map_map, List.map_map]
  rfl

theorem turns_map (g : ν → μ) (f : Form ν) : (f.map g).turns = f.turns.map (Turn.map g) := by
  have hchildren (f : Form ν) : (f.map g).children.map .child = (f.children.map Turn.child).map (Turn.map g) := by
    rw [map_childTurns, children_map]
  cases f with
  | typeDecl ms name body | member ms d =>
    rw [map, turns, turns, List.map_append, map_modifierTurns]
    rfl
  | function ms result name params body =>
    simp only [map, turns, List.map_append, map_modifierTurns, map_childTurns]
    cases result <;> rfl
  | property ms d accessors =>
    have hd : (d.map g).children = d.children.map g := children_map g (.declarator d)
    rw [map, turns, turns, List.map_append, List.map_append, map_modifierTurns, map_accessorTurns, map_childTurns,
      hd]
  | call callee args =>
    simp only [map, turns, List.map_append, map_childTurns]
    rfl
  | unsupported => rfl
  | _ => exact hchildren _

def parts : Form ν → List Part
  | unsupported => [.whole]
  | f => f.accessors.zipIdx.map (fun b => .key b.2) ++ f.modifiers.zipIdx.map fun m => .modifier m.2

theorem accessorTurns_perm (accessors : List (Accessor × ν)) :
    (accessorTurns accessors).Perm
      ((accessors.zipIdx.map fun b => Part.key b.2).map .part ++ (accessors.map Prod.snd).map .child) := by
  have hkeys : accessors.zipIdx.flatMap (fun b => [Turn.part (.key b.2)]) =
      ((accessors.zipIdx.map fun b => Part.key b.2).map .part : List (Turn ν)) := by
    rw [List.map_map, ← List.flatMap_pure_eq_map]
    rfl
  have hbodies : accessors.zipIdx.flatMap (fun b => [Turn.child b.1.2]) = (accessors.map Prod.snd).map .child := by
    rw [flatMap_zipIdx (h := fun b => [Turn.child b.2]) (fun _ _ _ => rfl), List.map_map,
      ← List.flatMap_pure_eq_map]
    rfl
  rw [← hkeys, ← hbodies]
  exact (List.flatMap_append_perm accessors.zipIdx (fun b => [Turn.part (.key b.2)]) fun b => [.child b.1.2]).symm

theorem turns_perm (f : Form ν) : f.turns.Perm (f.parts.map .part ++ f.children.map .child) := by
  have hmodifiers (ms : Option (List Modifier)) :
      (modifierTurns ms : List (Turn ν)) = ((ms.getD []).zipIdx.map fun m => Part.modifier m.2).map .part := by
    rw [modifierTurns, List.map_map]
    rfl
  -- where the order differs from that of the children, turns are counted
  classical
  cases f with
  | function ms result name params body =>
    rw [turns, hmodifiers, List.perm_iff_count]
    intro t
    simp only [parts, accessors, children, modifiers, List.zipIdx_nil, List.map_nil, List.map_cons, List.map_append,
      List.count_append, List.count_cons, List.count_nil]
    omega
  | property ms d accessors =>
    have hsplit := accessorTurns_perm accessors
    rw [turns, hmodifiers]
    rw [List.perm_iff_count] at hsplit ⊢
    intro t
    have hcount := hsplit t
    simp only [parts, Form.accessors, modifiers, children, Declarator.children, List.map_cons, List.map_append,
      List.count_append, List.count_cons] at hcount ⊢
    omega
  | call callee args =>
    simp only [turns, parts, children, List.map_append]
    exact List.perm_append_comm
  | _ => simp [turns, parts, hmodifiers, accessors, children, modifiers]

theorem parts_nodup (f : Form ν) : f.parts.Nodup := by
  have hkeys := nodup_map_zipIdx (g := Part.key) (fun _ _ => Part.key.inj) f.accessors
  have hmodifiers := nodup_map_zipIdx (g := Part.modifier) (fun _ _ => Part.modifier.inj) f.modifiers
  have hboth := List.nodup_append.mpr ⟨hkeys, hmodifiers, by grind⟩
  cases f with
  | unsupported => exact List.nodup_singleton _
  | _ => exact hboth

theorem order_nodup (f : Form ν) : f.order.Nodup := by
  have hchildren : (f.children.mapIdx fun i _ => i).Nodup := by
    rw [List.mapIdx_eq_zipIdx_map]
    exact nodup_map_zipIdx (g := id) Function.injective_id f.children
  rw [order, (turns_perm _).nodup_iff, children_mapIdx, List.nodup_append]
  refine ⟨(parts_nodup _).map fun _ _ => Turn.part.inj, hchildren.map fun _ _ => Turn.child.inj, by simp⟩

/-! ## Warnings turn by turn -/

def lacking? (f : Form ν) : Part → Option Warning
  | .whole =>
    match f with
    | unsupported => some .unsupported
    | _ => none
  | .modifier i => f.modifiers[i]?.bind fun m => (Warning.ofModifier m).head?
  | .key i => f.accessors[i]?.bind fun b => (Warning.ofAccessor b.1).head?

theorem lacking?_map (g : ν → μ) (f : Form ν) (p : Part) : (f.map g).lacking? p = f.lacking? p := by
  cases p with
  | whole => cases f <;> rfl
  | modifier i => rw [lacking?, lacking?, modifiers_map]
  | key i =>
    rw [lacking?, lacking?, accessors_map, List.getElem?_map, Option.bind_map]
    rfl

theorem degrades_iff {f : Form ν} {p : Part} {line : LogLine} :
    f.Degrades p line ↔ ∃ w, f.lacking? p = some w ∧ (Event.warned w).line = line := by
  constructor
  · intro h
    cases h with
    | unsupported => exact ⟨.unsupported, rfl, rfl⟩
    | modifier hm => exact ⟨.modifier _, by rw [lacking?, hm]; rfl, rfl⟩
    | accessor hb hget hset => exact ⟨.accessor _, by simp [lacking?, hb, Warning.ofAccessor, hget, hset], rfl⟩
  · intro h
    obtain ⟨w, hw, rfl⟩ := h
    cases p with
    | whole =>
      cases f with
      | unsupported =>
        cases hw
        exact .unsupported
      | _ => cases hw
    | modifier i =>
      obtain ⟨m, hm, hhead⟩ := Option.bind_eq_some_iff.mp hw
      cases m with
      | other token =>
        cases hhead
        exact .modifier hm
      | _ => cases hhead
    | key i =>
      obtain ⟨b, hb, hhead⟩ := Option.bind_eq_some_iff.mp hw
      unfold Warning.ofAccessor at hhead
      by_cases hkey : b.1.key = "get" ∨ b.1.key = "set"
      · simp [hkey] at hhead
      · rw [if_neg hkey] at hhead
        cases hhead
        rw [not_or] at hkey
        exact .accessor hb hkey.1 hkey.2

theorem mem_parts_of_lacking? {f : Form ν} {p : Part} {w : Warning} (h : f.lacking? p = some w) : p ∈ f.parts := by
  cases p with
  | whole =>
    cases f with
    | unsupported => exact List.mem_singleton_self _
    | _ => cases h
  | modifier i =>
    obtain ⟨m, hm, -⟩ := Option.bind_eq_some_iff.mp h
    have hmem : Part.modifier i ∈ f.modifiers.zipIdx.map fun m => Part.modifier m.2 :=
      List.mem_map.mpr ⟨(m, i), List.mem_zipIdx_iff_getElem?.mpr hm, rfl⟩
    cases f with
    | unsupported => cases hm
    | _ => exact List.mem_append_right _ hmem
  | key i =>
    obtain ⟨b, hb, -⟩ := Option.bind_eq_some_iff.mp h
    have hmem : Part.key i ∈ f.accessors.zipIdx.map fun b => Part.key b.2 :=
      List.mem_map.mpr ⟨(b, i), List.mem_zipIdx_iff_getElem?.mpr hb, rfl⟩
    cases f with
    | unsupported => cases hb
    | _ => exact List.mem_append_left _ hmem

def warningsAt (f : Form ν) (below : μ → List Warning) : Turn μ → List Warning
  | .part p => (f.lacking? p).toList
  | .child c => below c

section

variable (f : Form ν) (below : ν → List Warning)

theorem flatMap_modifierTurns {ms : Option (List Modifier)} (h : f.modifiers = ms.getD []) :
    (modifierTurns ms).flatMap (f.warningsAt below) = Warning.ofModifiers ms := by
  rw [modifierTurns, List.flatMap_map, Warning.ofModifiers]
  apply flatMap_zipIdx
  intro i m hm
  rw [warningsAt, lacking?, h, hm, Option.bind_some]
  cases m <;> rfl

theorem flatMap_accessorTurns : (accessorTurns f.accessors).flatMap (f.warningsAt below) =
    f.accessors.flatMap fun b => Warning.ofAccessor b.1 ++ below b.2 := by
  rw [accessorTurns, List.flatMap_assoc]
  apply flatMap_zipIdx
  intro i b hb
  have hkey : (f.lacking? (.key i)).toList = Warning.ofAccessor b.1 := by
    rw [lacking?, hb, Option.bind_some, Warning.ofAccessor]
    split <;> rfl
  simp [warningsAt, hkey]

theorem flatMap_childTurns (cs : List ν) : (cs.map Turn.child).flatMap (f.warningsAt below) = cs.flatMap below :=
  List.flatMap_map ..

end

theorem warnings_eq_flatMap (f : Form (List Warning)) : f.warnings = f.turns.flatMap (f.warningsAt id) := by
  have hrest (f : Form (List Warning)) :
      f.children.flatten = (f.children.map .child).flatMap (f.warningsAt id) := by
    rw [flatMap_childTurns, List.flatMap_id]
  cases f with
  | typeDecl ms name body | member ms d =>
    rw [turns, List.flatMap_append, flatMap_modifierTurns _ _ rfl]
    simp [warnings, warningsAt]
  | function ms result name params body =>
    rw [turns, List.flatMap_append, List.flatMap_append, flatMap_modifierTurns _ _ rfl, flatMap_childTurns]
    cases result <;> simp [warnings, warningsAt]
  | property ms d accessors =>
    have haccessors := flatMap_accessorTurns (property ms d accessors) id
    rw [Form.accessors] at haccessors
    rw [turns, List.flatMap_append, List.flatMap_append, flatMap_modifierTurns _ _ rfl, flatMap_childTurns,
      haccessors]
    cases hv : d.value <;> simp [warnings, Declarator.children, hv]
  | call callee args =>
    rw [turns, flatMap_childTurns]
    simp [warnings]
  | unsupported => rfl
  | _ => exact hrest _

/-! ## Warnings and where they come from -/

theorem order_eq_map (f : Form ν) : f.order = f.numbered.turns.map (Turn.map Prod.fst) := by
  have h : f.numbered.map Prod.fst = f.mapIdx fun i _ => i := by
    apply ext_own
    · rw [own_map, numbered, own_mapIdx, own_mapIdx]
    · rw [children_map, children_numbered, children_mapIdx, map_mapIdx]
  rw [← turns_map, h, order]

theorem turns_eq_map (f : Form ν) : f.turns = f.numbered.turns.map (Turn.map Prod.snd) := by
  rw [← turns_map, map_snd_numbered]

theorem child_mem_turns {f : Form ν} {i : Nat} {c : ν} :
    .child (i, c) ∈ f.numbered.turns ↔ f.children[i]? = some c := by
  have hchild : Turn.child (i, c) ∈ f.numbered.turns ↔ (i, c) ∈ f.numbered.children := by
    rw [(turns_perm _).mem_iff]
    simp
  rw [hchild, children_numbered, List.mem_mapIdx, List.getElem?_eq_some_iff]
  constructor
  · intro h
    obtain ⟨j, hj, e⟩ := h
    cases e
    exact ⟨hj, rfl⟩
  · intro h
    obtain ⟨hi, rfl⟩ := h
    exact ⟨i, hi, rfl⟩

theorem part_mem_turns {f : Form ν} {p : Part} {w : Warning} (h : f.lacking? p = some w) :
    .part p ∈ f.numbered.turns := by
  rw [← map_snd_numbered f, lacking?_map] at h
  rw [(turns_perm _).mem_iff]
  exact List.mem_append_left _ (List.mem_map_of_mem (mem_parts_of_lacking? h))

def traceAt (f : Form ν) (below : μ → List (Origin × Warning)) : Turn (Nat × μ) → List (Origin × Warning)
  | .part p => (f.lacking? p).toList.map fun w => (⟨[], p⟩, w)
  | .child c => (below c.2).map fun e => (e.1.under c.1, e.2)

theorem turn_of_mem_traceAt {f : Form ν} {below : μ → List (Origin × Warning)} {t : Turn (Nat × μ)}
    {e : Origin × Warning} (h : e ∈ f.traceAt below t) : e.1.turn = t.map Prod.fst := by
  cases t with
  | part p =>
    obtain ⟨w, -, rfl⟩ := List.mem_map.mp h
    rfl
  | child c =>
    obtain ⟨e, -, rfl⟩ := List.mem_map.mp h
    rfl

end Form

namespace Node

def trace : Node → List (Origin × Warning) :=
  fold fun f => f.numbered.turns.flatMap (f.traceAt id)

theorem trace_mk (f : Form Node) : (mk f).trace = f.numbered.turns.flatMap (f.traceAt trace) := by
  rw [trace, fold_mk, Form.numbered_map, Form.turns_map, List.flatMap_map]
  apply List.flatMap_congr
  intro t _
  cases t with
  | part p => rw [Turn.map, Form.traceAt, Form.lacking?_map, Form.traceAt]
  | child c => rfl

theorem warnings_mk_eq (f : Form Node) :
    (mk f).warnings = f.numbered.turns.flatMap (f.warningsAt fun c => c.2.warnings) := by
  rw [warnings, fold_mk, Form.warnings_eq_flatMap, Form.turns_map, Form.turns_eq_map, List.map_map,
    List.flatMap_map]
  apply List.flatMap_congr
  intro t _
  cases t with
  | part p => exact congrArg Option.toList (Form.lacking?_map _ f p)
  | child c => rfl

theorem map_snd_trace (n : Node) : n.trace.map Prod.snd = n.warnings := by
  induction n using induct with
  | step f ih =>
    rw [trace_mk, warnings_mk_eq, List.map_flatMap]
    apply List.flatMap_congr
    intro t ht
    cases t with
    | part p =>
      rw [Form.traceAt, List.map_map, Form.warningsAt]
      exact List.map_id _
    | child c =>
      have hc := List.mem_of_getElem? (Form.child_mem_turns.mp ht)
      rw [Form.traceAt, List.map_map, Form.warningsAt, ← ih c.2 hc]
      rfl

theorem mem_trace {n : Node} {o : Origin} {w : Warning} :
    (o, w) ∈ n.trace ↔ ∃ m, n.at? o.position = some m ∧ m.form.lacking? o.part = some w := by
  induction n using induct generalizing o with
  | step f ih =>
    rw [trace_mk, List.mem_flatMap]
    constructor
    · intro h
      obtain ⟨t, ht, hw⟩ := h
      cases t with
      | part p =>
        obtain ⟨v, hv, e⟩ := List.mem_map.mp hw
        cases e
        exact ⟨mk f, rfl, Option.mem_toList.mp hv⟩
      | child c =>
        obtain ⟨e, he, heq⟩ := List.mem_map.mp hw
        cases heq
        have hc := Form.child_mem_turns.mp ht
        obtain ⟨m, hm, hlacking⟩ := (ih c.2 (List.mem_of_getElem? hc)).mp he
        exact ⟨m, Option.bind_eq_some_iff.mpr ⟨c.2, hc, hm⟩, hlacking⟩
    · intro h
      obtain ⟨m, hm, hw⟩ := h
      obtain ⟨position, part⟩ := o
      cases position with
      | nil =>
        cases hm
        exact ⟨.part part, Form.part_mem_turns hw, List.mem_map.mpr ⟨w, Option.mem_toList.mpr hw, rfl⟩⟩
      | cons i p =>
        obtain ⟨c, hc, hm⟩ := Option.bind_eq_some_iff.mp hm
        have hbelow : (⟨p, part⟩, w) ∈ c.trace := (ih c (List.mem_of_getElem? hc)).mpr ⟨m, hm, hw⟩
        exact ⟨.child (i, c), Form.child_mem_turns.mpr hc, List.mem_map.mpr ⟨_, hbelow, rfl⟩⟩

theorem trace_pairwise (n : Node) : n.trace.Pairwise fun a b => n.Before a.1 b.1 := by
  induction n using induct with
  | step f ih =>
    rw [trace_mk, List.pairwise_flatMap]
    constructor
    · intro t ht
      cases t with
      | part p =>
        -- there is one warning at most
        cases h : f.lacking? p <;> simp [Form.traceAt, h]
      | child c =>
        have hc := Form.child_mem_turns.mp ht
        rw [Form.traceAt, List.pairwise_map]
        exact (ih c.2 (List.mem_of_getElem? hc)).imp fun h => .inside hc h
    · -- all that comes from one turn has that turn in the order of the root
      rw [List.pairwise_iff_forall_sublist]
      intro t u htu a ha b hb
      have horder := htu.map (Turn.map Prod.fst)
      rw [← Form.order_eq_map, List.map_cons, List.map_singleton, ← Form.turn_of_mem_traceAt ha,
        ← Form.turn_of_mem_traceAt hb] at horder
      exact .here horder

/-- What is evaluated before a part is another part: no turn comes twice. -/
theorem Before.ne {n : Node} {a b : Origin} (h : n.Before a b) : a ≠ b := by
  induction h with
  | @here n a b hturns =>
    intro e
    subst e
    exact List.nodup_iff_sublist.mp n.form.order_nodup a.turn hturns
  | inside _ _ ih =>
    intro e
    exact ih (Origin.under_inj e)

theorem nodup_fst_trace (n : Node) : (n.trace.map Prod.fst).Nodup := by
  rw [List.Nodup, List.pairwise_map]
  exact n.trace_pairwise.imp Before.ne

-- an argument comes before what is called, and a key before its body
example : (mk (.call (mk .unsupported) [mk (.property none ⟨ident "T", ident "x", none⟩
    [(.other "init", mk (.member (some [.pub, .other "sealed"]) (ident "y")))])])).trace =
    [(⟨[1], .key 0⟩, .accessor "init"), (⟨[1, 2], .modifier 1⟩, .modifier "sealed"),
      (⟨[0], .whole⟩, .unsupported)] := by
  decide

end Node

/-- Each part of the current tree without a translation is reported once, in the order of evaluation,
and nothing else is. -/
theorem Session.emit_trace (s : Session) (n : Node) (above : List Node) :
    ∃ trace : List (Origin × LogLine),
      trace.map Prod.snd = ({ s with stack := n :: above }.step .emit).2.events.map Event.line ∧
      (trace.map Prod.fst).Nodup ∧ (∀ o line, (o, line) ∈ trace ↔ n.Degrades o line) ∧
      trace.Pairwise fun a b => n.Before a.1 b.1 := by
  refine ⟨n.trace.map fun e => (e.1, (Event.warned e.2).line), ?_, ?_, ?_, ?_⟩
  · change _ = (n.warnings.map Event.warned).map Event.line
    rw [← n.map_snd_trace, List.map_map, List.map_map, List.map_map]
    rfl
  · rw [List.map_map]
    exact n.nodup_fst_trace
  · intro o line
    rw [List.mem_map]
    constructor
    · intro h
      obtain ⟨e, he, heq⟩ := h
      cases heq
      obtain ⟨m, hm, hw⟩ := Node.mem_trace.mp he
      exact ⟨m, hm, Form.degrades_iff.mpr ⟨e.2, hw, rfl⟩⟩
    · intro h
      obtain ⟨m, hm, hd⟩ := h
      obtain ⟨w, hw, rfl⟩ := Form.degrades_iff.mp hd
      exact ⟨(o, w), Node.mem_trace.mpr ⟨m, hm, hw⟩, rfl⟩
  · rw [List.pairwise_map]
    exact n.trace_pairwise

end SharpTree
