import SharpTree.CodeUnit
import SharpTree.Proofs.CSharp.Pieces
import SharpTree.Proofs.Node.Position

/-!
# Brackets are well nested

A word of brackets is well nested if each bracket that is opened is closed by one
of its own kind, and what stands between the two is well nested again. A stack of
awaited brackets decides this (`settle_eq_some_nil`).

Each form opens and closes its own brackets around well-nested parts, so the text
of a tree is well nested as soon as the texts that it takes over as they are
(names, operators, literals and accessor keywords) are so one by one.
-/

namespace SharpTree

variable {ν μ : Type}

/-! ## Words of brackets -/

def closer? : Char → Option Char
  | '(' => some ')'
  | '[' => some ']'
  | '{' => some '}'
  | _ => none

inductive Dyck : List Char → Prop where
  | nil : Dyck []
  | wrap {a b : Char} {u v : List Char} (h : closer? a = some b) (hu : Dyck u) (hv : Dyck v) :
      Dyck (a :: (u ++ b :: v))

theorem Dyck.append {u v : List Char} (hu : Dyck u) (hv : Dyck v) : Dyck (u ++ v) := by
  induction hu with
  | nil => exact hv
  | @wrap a b u u' h hu hu' _ ih =>
    have := Dyck.wrap h hu ih
    simpa using this

theorem closer?_closer {a b : Char} (h : closer? a = some b) : closer? b = none := by
  unfold closer? at h
  split at h <;> cases h <;> rfl

/-- Reads a word against the brackets that are awaited, the next one first. -/
def settle : List Char → List Char → Option (List Char)
  | awaited, [] => some awaited
  | awaited, c :: w =>
    match closer? c, awaited with
    | some d, _ => settle (d :: awaited) w
    | none, d :: rest => if c = d then settle rest w else none
    | none, [] => none

theorem settle_open {c d : Char} (h : closer? c = some d) (awaited w : List Char) :
    settle awaited (c :: w) = settle (d :: awaited) w := by
  simp [settle, h]

theorem settle_close {d : Char} (h : closer? d = none) (rest w : List Char) :
    settle (d :: rest) (d :: w) = settle rest w := by
  simp [settle, h]

theorem Dyck.settle {u : List Char} (hu : Dyck u) (awaited w : List Char) :
    SharpTree.settle awaited (u ++ w) = SharpTree.settle awaited w := by
  induction hu generalizing awaited w with
  | nil => rfl
  | @wrap a b u v h _ _ ihu ihv =>
    rw [List.cons_append, settle_open h, List.append_assoc, ihu, List.cons_append, settle_close (closer?_closer h),
      ihv]

/-- Well-nested words with the awaited brackets between them. -/
def Settles : List Char → List Char → Prop
  | [], w => Dyck w
  | d :: rest, w => ∃ u v, w = u ++ d :: v ∧ Dyck u ∧ Settles rest v

theorem Settles.prepend {awaited u w : List Char} (hu : Dyck u) (hw : Settles awaited w) :
    Settles awaited (u ++ w) := by
  cases awaited with
  | nil => exact hu.append hw
  | cons d rest =>
    obtain ⟨x, y, rfl, hx, hy⟩ := hw
    exact ⟨u ++ x, y, by simp, hu.append hx, hy⟩

theorem settles_of_settle {awaited w : List Char} (h : settle awaited w = some []) : Settles awaited w := by
  induction w generalizing awaited with
  | nil =>
    cases h
    exact .nil
  | cons c w ih =>
    cases hc : closer? c with
    | some d =>
      rw [settle_open hc] at h
      obtain ⟨u, v, rfl, hu, hv⟩ := ih h
      have := hv.prepend (Dyck.wrap hc hu .nil)
      simpa using this
    | none =>
      cases awaited with
      | nil => simp [settle, hc] at h
      | cons d rest =>
        by_cases hd : c = d
        · subst hd
          rw [settle_close hc] at h
          exact ⟨[], w, rfl, .nil, ih h⟩
        · simp [settle, hc, hd] at h

theorem settle_eq_some_nil {w : List Char} : settle [] w = some [] ↔ Dyck w := by
  constructor
  · exact settles_of_settle
  · intro h
    have := h.settle [] []
    simpa [settle] using this

instance (w : List Char) : Decidable (Dyck w) :=
  decidable_of_iff _ settle_eq_some_nil

/-! ## Texts -/

def isBracket (c : Char) : Bool :=
  c ∈ ['(', ')', '[', ']', '{', '}']

def brackets (s : String) : List Char :=
  s.toList.filter isBracket

def Nested (s : String) : Prop :=
  Dyck (brackets s)

instance (s : String) : Decidable (Nested s) :=
  inferInstanceAs (Decidable (Dyck (brackets s)))

theorem brackets_append (s t : String) : brackets (s ++ t) = brackets s ++ brackets t := by
  simp [brackets]

theorem nested_empty : Nested "" := by
  decide

theorem Nested.append {s t : String} (hs : Nested s) (ht : Nested t) : Nested (s ++ t) := by
  unfold Nested at *
  rw [brackets_append]
  exact hs.append ht

def wraps (s t : String) : Bool :=
  match brackets s, brackets t with
  | [a], [b] => closer? a = some b
  | _, _ => false

theorem nested_wrap {s t u : String} (h : wraps s t = true) (hu : Nested u) : Nested (s ++ u ++ t) := by
  unfold Nested at *
  unfold wraps at h
  split at h
  · rename_i a b hs ht
    rw [brackets_append, brackets_append, hs, ht]
    exact .wrap (of_decide_eq_true h) hu .nil
  · cases h

theorem Nested.wrap {r s t u : String} (hr : Nested r) (h : wraps s t = true) (hu : Nested u) :
    Nested (r ++ s ++ u ++ t) := by
  have := hr.append (nested_wrap h hu)
  rwa [← String.append_assoc, ← String.append_assoc] at this

theorem nested_join {ss : List String} (h : ∀ s ∈ ss, Nested s) : Nested (String.join ss) := by
  induction ss with
  | nil => exact nested_empty
  | cons s ss ih =>
    rw [String.join_cons]
    exact (h s List.mem_cons_self).append (ih fun t ht => h t (List.mem_cons_of_mem _ ht))

theorem nested_intercalate {sep : String} (hsep : Nested sep) : ∀ {ss : List String}, (∀ s ∈ ss, Nested s) →
    Nested (sep.intercalate ss)
  | [], _ => by
    rw [String.intercalate_nil]
    exact nested_empty
  | [s], h => by
    rw [String.intercalate_singleton]
    exact h s List.mem_cons_self
  | s :: t :: ss, h => by
    rw [String.intercalate_cons_cons]
    have hrest := nested_intercalate hsep fun u hu => h u (List.mem_cons_of_mem s hu)
    exact ((h s List.mem_cons_self).append hsep).append hrest

theorem nested_elim {α : Type} {o : Option α} {s : String} {g : α → String} (hs : Nested s)
    (hg : ∀ a, o = some a → Nested (g a)) : Nested (o.elim s g) := by
  cases o with
  | none => exact hs
  | some a => exact hg a rfl

theorem nested_modifierText (ms : Option (List Modifier)) : Nested (modifierText ms) := by
  cases ms with
  | none => exact nested_empty
  | some ms =>
    have hwords : ∀ s ∈ ms.map Modifier.keyword, Nested s := by
      intro s hs
      obtain ⟨m, -, rfl⟩ := List.mem_map.mp hs
      cases m with
      | other token => exact (by decide : Nested placeholder)
      | _ => decide
    exact (nested_intercalate (by decide) hwords).append (by decide)

/-! ## Forms -/

namespace Form

/-- The texts that a form takes over as they are. -/
def verbatim : Form ν → List String
  | identifier name => [name]
  | operation _ op _ => [op]
  | stringLit v | numberLit v | booleanLit v => [v.raw]
  | property _ _ accessors => accessors.map (·.1.keyword)
  | _ => []

theorem verbatim_map (g : ν → μ) (f : Form ν) : (f.map g).verbatim = f.verbatim := by
  cases f <;> simp [map, verbatim]

theorem nested_accessors {accessors : List (Accessor × Fragment)} (hkey : ∀ b ∈ accessors, Nested b.1.keyword)
    (hbody : ∀ b ∈ accessors, Nested b.2.text) :
    Nested ("\n".intercalate (accessors.map fun (a, body) => accessorText a body)) := by
  apply nested_intercalate (by decide)
  intro s hs
  obtain ⟨b, hb, rfl⟩ := List.mem_map.mp hs
  exact (((hkey b hb).append (by decide)).append (hbody b hb)).append (by decide)

theorem nested_statements {kind : BlockKind} {body : List Fragment} (h : ∀ c ∈ body, Nested c.text) :
    Nested (String.join (body.map (statementText kind))) := by
  apply nested_join
  intro s hs
  obtain ⟨c, hc, rfl⟩ := List.mem_map.mp hs
  unfold statementText
  split
  · exact (h c hc).append (by decide)
  · exact (h c hc).append (by decide)

theorem nested_texts {sep : String} (hsep : Nested sep) {cs : List Fragment} (h : ∀ c ∈ cs, Nested c.text) :
    Nested (sep.intercalate (cs.map (·.text))) := by
  apply nested_intercalate hsep
  intro s hs
  obtain ⟨c, hc, rfl⟩ := List.mem_map.mp hs
  exact h c hc

theorem nested_text {f : Form Fragment} (hown : ∀ s ∈ f.verbatim, Nested s) (h : ∀ c ∈ f.children, Nested c.text) :
    Nested f.text := by
  cases f with
  | program body =>
    apply nested_join
    intro s hs
    obtain ⟨c, hc, rfl⟩ := List.mem_map.mp hs
    exact (h c hc).append (by decide)
  | block kind body => exact nested_wrap (by decide) (nested_statements h)
  | typeDecl ms name body =>
    have hname := h name (by simp [children])
    have hbody := h body (by simp [children])
    exact (((((nested_modifierText ms).append (by decide)).append hname).append (by decide)).append hbody).append
      (by decide)
  | function ms result name params body =>
    have hresult : Nested (result.elim "void" (·.text)) :=
      nested_elim (by decide) fun c hc => h c (by simp [children, hc])
    have hname := h name (by simp [children])
    have hparams : Nested (", ".intercalate (params.map (·.text))) :=
      nested_texts (by decide) fun c hc => h c (by simp [children, hc])
    have hbody := h body (by simp [children])
    have hhead := (((nested_modifierText ms).append hresult).append (t := " ") (by decide)).append hname
    exact (hhead.wrap (s := "(") (t := ") ") (by decide) hparams).append hbody
  | declarator d =>
    have htype := h d.varType (by simp [children, Declarator.children])
    have hname := h d.varName (by simp [children, Declarator.children])
    have hvalue : Nested (d.value.elim "" (" = " ++ ·.text)) := by
      apply nested_elim nested_empty
      intro c hc
      exact Nested.append (by decide) (h c (by simp [children, Declarator.children, hc]))
    exact ((htype.append (by decide)).append hname).append hvalue
  | localVar d => exact h d (by simp [children])
  | member ms d => exact ((nested_modifierText ms).append (h d (by simp [children]))).append (by decide)
  | property ms d accessors =>
    have htype := h d.varType (by simp [children])
    have hname := h d.varName (by simp [children])
    have haccessors : Nested ("\n".intercalate (accessors.map fun (a, body) => accessorText a body)) := by
      apply nested_accessors
      · intro b hb
        exact hown _ (List.mem_map_of_mem hb)
      · intro b hb
        exact h b.2 (by simp only [children]; grind)
    have hvalue : Nested (d.value.elim "" (" = " ++ ·.text ++ ";")) := by
      apply nested_elim nested_empty
      intro c hc
      have hc' := h c (by simp [children, hc])
      exact (Nested.append (by decide) hc').append (by decide)
    have hhead := (((nested_modifierText ms).append htype).append (t := " ") (by decide)).append hname
    exact (hhead.wrap (s := " \x7b\n") (t := "\x7d") (by decide) haccessors).append hvalue
  | identifier name => exact hown name (by simp [verbatim])
  | path curr next =>
    have hnext : Nested (next.elim "" ("." ++ ·.text)) := by
      apply nested_elim nested_empty
      intro c hc
      exact Nested.append (by decide) (h c (by simp [children, hc]))
    exact (h curr (by simp [children])).append hnext
  | importing target => exact (Nested.append (by decide) (h target (by simp [children]))).append (by decide)
  | call callee args =>
    have hargs : Nested (",".intercalate (args.map (·.text))) :=
      nested_texts (by decide) fun c hc => h c (by simp [children, hc])
    exact (h callee (by simp [children])).wrap (by decide) hargs
  | access left right =>
    exact ((h left (by simp [children])).append (by decide)).append (h right (by simp [children]))
  | index source position =>
    exact (h source (by simp [children])).wrap (by decide) (h position (by simp [children]))
  | arrayOf target => exact (h target (by simp [children])).append (by decide)
  | creation target => exact Nested.append (by decide) (h target (by simp [children]))
  | assignment dest source =>
    exact ((h dest (by simp [children])).append (by decide)).append (h source (by simp [children]))
  | operation left op right =>
    have hop := hown op (by simp [verbatim])
    have hleft := h left (by simp [children])
    exact (((hleft.append (by decide)).append hop).append (by decide)).append (h right (by simp [children]))
  | stringLit v => exact (Nested.append (by decide) (hown v.raw (by simp [verbatim]))).append (by decide)
  | numberLit v => exact hown v.raw (by simp [verbatim])
  | booleanLit v => exact hown v.raw (by simp [verbatim])
  | conditional c body =>
    exact (nested_wrap (by decide) (h c (by simp [children]))).append (h body (by simp [children]))
  | loop c body =>
    exact (nested_wrap (by decide) (h c (by simp [children]))).append (h body (by simp [children]))
  | returning v => exact Nested.append (by decide) (h v (by simp [children]))
  | unsupported => exact (by decide : Nested placeholder)

end Form

/-! ## Trees -/

namespace Node

theorem nested_render {n : Node} (h : n.Everywhere fun m => ∀ s ∈ m.form.verbatim, Nested s) : Nested n.render := by
  induction n using induct with
  | step f ih =>
    obtain ⟨hown, hchildren⟩ := everywhere_mk.mp h
    rw [render_eq_text]
    apply Form.nested_text
    · rw [Form.verbatim_map]
      exact hown
    · intro c hc
      rw [Form.children_map] at hc
      obtain ⟨m, hm, rfl⟩ := List.mem_map.mp hc
      exact ih m hm (hchildren m hm)

/-- The brackets in the text of a tree are well nested, and so are those of a unit that has no directive, if they
are in each name, operator, literal and accessor keyword of the tree. -/
theorem brackets_well_nested {n : Node} (h : n.Everywhere fun m => ∀ s ∈ m.form.verbatim, Nested s) :
    Nested n.render ∧
      ∀ (g : Generator) (source : String), g.directive = none → Nested (g.generate n source).result.content := by
  have hrender := nested_render h
  refine ⟨hrender, ?_⟩
  intro g source hg
  unfold Generator.generate Generator.heading
  rw [hg]
  exact nested_empty.append hrender

/-- The key of the accessor is not well nested, but its first three characters are. -/
theorem brackets_well_nested_property :
    Nested (Generator.plain.generate (mk (.property none ⟨mk (.arrayOf (mk (.identifier "List<(int)>"))),
      mk (.identifier "x"), some (mk (.numberLit (.arr [.str "[]", .obj [("(", .str ")")]])))⟩
      [(.other "(a)]", mk (.block .code []))])) "box").result.content := by
  refine (brackets_well_nested ?_).2 Generator.plain "box" rfl
  have hraw : Nested (Accessor.other "(a)]").keyword ∧ Nested "List<(int)>" ∧ Nested "x" ∧
      Nested (Json.Value.arr [.str "[]", .obj [("(", .str ")")]]).raw := by
    decide
  simpa [everywhere_mk, Form.children, Form.verbatim, Node.form] using hraw

end Node

end SharpTree
