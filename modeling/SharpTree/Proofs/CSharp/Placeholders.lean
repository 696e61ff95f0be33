import Mathlib.Algebra.BigOperators.Group.List.Basic
import Mathlib.Algebra.GroupWithZero.Nat
import SharpTree.Proofs.CSharp.Pieces
import SharpTree.Proofs.Node.Position

/-!
# Counting placeholders

A placeholder stands for each node of no known kind and for each modifier of no
known meaning. If no name, operator, literal or key of a tree has a star in it,
the placeholders that can be found in the text are these and no others: one that
began anywhere else would need a star after its first slash.
-/

namespace SharpTree

variable {ν : Type}

/-! ## Occurrences -/

/-- The number of places where a pattern starts in a text. -/
def occurrences (pattern : List Char) : List Char → Nat
  | [] => if pattern.isPrefixOf [] then 1 else 0
  | c :: w => (if pattern.isPrefixOf (c :: w) then 1 else 0) + occurrences pattern w

def placeholders (s : String) : Nat :=
  occurrences placeholder.toList s.toList

def Starless (w : List Char) : Prop :=
  '*' ∉ w

instance (w : List Char) : Decidable (Starless w) :=
  inferInstanceAs (Decidable ('*' ∉ w))

/-- Texts without stars, with placeholders between them. -/
inductive Clean : List Char → Prop where
  | plain {w : List Char} (h : Starless w) : Clean w
  | mark {w rest : List Char} (h : Starless w) (hr : Clean rest) : Clean (w ++ (placeholder.toList ++ rest))

theorem placeholder_eq : placeholder.toList = '/' :: ("* not implement *".toList ++ ['/']) := by
  decide

theorem starless_append {v w : List Char} : Starless (v ++ w) ↔ Starless v ∧ Starless w := by
  unfold Starless
  rw [List.mem_append, not_or]

theorem Clean.head {w : List Char} (h : Clean w) : w.head? ≠ some '*' := by
  intro hw
  cases h with
  | plain h => exact h (List.mem_of_mem_head? hw)
  | @mark v rest h hr =>
    cases v with
    | nil =>
      rw [placeholder_eq] at hw
      cases hw
    | cons c v =>
      cases hw
      exact h List.mem_cons_self

theorem Clean.append {v w : List Char} (hv : Clean v) (hw : Clean w) : Clean (v ++ w) := by
  induction hv with
  | plain h =>
    cases hw with
    | plain h' => exact .plain (starless_append.mpr ⟨h, h'⟩)
    | mark h' hr =>
      rw [← List.append_assoc]
      exact .mark (starless_append.mpr ⟨h, h'⟩) hr
  | mark h hr ih =>
    rw [List.append_assoc, List.append_assoc]
    exact .mark h ih

theorem not_prefix_of_head {c : Char} {w : List Char} (h : w.head? ≠ some '*') :
    placeholder.toList.isPrefixOf (c :: w) = false := by
  rw [placeholder_eq]
  cases w with
  | nil => simp [List.isPrefixOf]
  | cons d w =>
    have hd : ('*' == d) = false := by
      apply beq_false_of_ne
      intro e
      exact h (by rw [← e]; rfl)
    change ('/' :: '*' :: (" not implement *".toList ++ ['/'])).isPrefixOf (c :: d :: w) = false
    rw [List.isPrefixOf_cons_cons, List.isPrefixOf_cons_cons, hd, Bool.false_and, Bool.and_false]

theorem not_prefix_of_ne {c : Char} {w : List Char} (h : c ≠ '/') :
    placeholder.toList.isPrefixOf (c :: w) = false := by
  rw [placeholder_eq]
  rw [List.isPrefixOf_cons_cons, beq_false_of_ne (Ne.symm h), Bool.false_and]

theorem occurrences_starless {v w : List Char} (hv : Starless v) (hw : w.head? ≠ some '*') :
    occurrences placeholder.toList (v ++ w) = occurrences placeholder.toList w := by
  induction v with
  | nil => rfl
  | cons c v ih =>
    have hv' : Starless v := fun h => hv (List.mem_cons_of_mem _ h)
    have hhead : (v ++ w).head? ≠ some '*' := by
      cases v with
      | nil => exact hw
      | cons d v =>
        intro hd
        cases hd
        exact hv' List.mem_cons_self
    rw [List.cons_append, occurrences, not_prefix_of_head hhead, ih hv']
    simp

theorem occurrences_slashless {v : List Char} (hv : '/' ∉ v) (w : List Char) :
    occurrences placeholder.toList (v ++ w) = occurrences placeholder.toList w := by
  induction v with
  | nil => rfl
  | cons c v ih =>
    have hc : c ≠ '/' := fun e => hv (e ▸ List.mem_cons_self)
    rw [List.cons_append, occurrences, not_prefix_of_ne hc, ih fun h => hv (List.mem_cons_of_mem _ h)]
    simp

theorem occurrences_placeholder {w : List Char} (hw : w.head? ≠ some '*') :
    occurrences placeholder.toList (placeholder.toList ++ w) = 1 + occurrences placeholder.toList w := by
  have hpre : placeholder.toList.isPrefixOf (placeholder.toList ++ w) = true := by simp
  have hslash : '/' ∉ "* not implement *".toList := by decide
  have hrest : occurrences placeholder.toList (("* not implement *".toList ++ ['/']) ++ w) =
      occurrences placeholder.toList w := by
    rw [List.append_assoc, occurrences_slashless hslash, List.singleton_append, occurrences, not_prefix_of_head hw]
    simp
  conv => lhs; arg 2; rw [placeholder_eq]
  rw [List.cons_append, occurrences, hrest]
  rw [placeholder_eq, List.cons_append, ← placeholder_eq] at hpre
  rw [hpre]
  rfl

theorem occurrences_append {v w : List Char} (hv : Clean v) (hw : Clean w) :
    occurrences placeholder.toList (v ++ w) =
      occurrences placeholder.toList v + occurrences placeholder.toList w := by
  have hnil : occurrences placeholder.toList [] = 0 := by decide
  have hstart (u : List Char) : (placeholder.toList ++ u).head? ≠ some '*' := by
    rw [placeholder_eq]
    intro h
    cases h
  induction hv with
  | @plain t h =>
    have ht : occurrences placeholder.toList t = 0 := by
      rw [← List.append_nil t, occurrences_starless h (by decide), hnil]
    rw [occurrences_starless h hw.head, ht, Nat.zero_add]
  | @mark t rest h hr ih =>
    have happ := hr.append hw
    rw [List.append_assoc, List.append_assoc, occurrences_starless h (hstart _), occurrences_starless h (hstart _),
      occurrences_placeholder happ.head, occurrences_placeholder hr.head, ih, Nat.add_assoc]

theorem occurrences_eq_zero {pattern w : List Char} : occurrences pattern w = 0 ↔ ¬ pattern <:+: w := by
  induction w with
  | nil =>
    rw [occurrences, List.infix_nil]
    cases pattern <;> simp
  | cons c w ih =>
    rw [occurrences, List.infix_cons_iff, not_or, ← ih]
    simp

theorem isPrefixOf_append_cons {pattern : List Char} {c : Char} (hc : c ∉ pattern) (v w : List Char) :
    pattern.isPrefixOf (v ++ c :: w) = pattern.isPrefixOf v := by
  induction pattern generalizing v with
  | nil => rfl
  | cons a pattern ih =>
    obtain ⟨hca, hc⟩ := not_or.mp (mt List.mem_cons.mpr hc)
    cases v with
    | nil =>
      rw [List.nil_append, List.isPrefixOf_cons_cons, beq_false_of_ne (Ne.symm hca), Bool.false_and]
      rfl
    | cons b v => rw [List.cons_append, List.isPrefixOf_cons_cons, List.isPrefixOf_cons_cons, ih hc]

/-- No occurrence reaches over a character that the pattern does not have. -/
theorem occurrences_append_cons {pattern : List Char} {c : Char} (hc : c ∉ pattern) (hpattern : pattern ≠ [])
    (v w : List Char) : occurrences pattern (v ++ c :: w) = occurrences pattern v + occurrences pattern w := by
  have hnil : pattern.isPrefixOf [] = false := by
    cases pattern with
    | nil => exact absurd rfl hpattern
    | cons a pattern => rfl
  induction v with
  | nil =>
    have hcons := isPrefixOf_append_cons hc [] w
    rw [List.nil_append] at hcons
    rw [List.nil_append, occurrences, occurrences, hcons]
  | cons b v ih =>
    rw [List.cons_append, occurrences, occurrences, ← List.cons_append, isPrefixOf_append_cons hc, ih,
      Nat.add_assoc]

/-! ## Rows of texts -/

theorem clean_of_starless {s : String} (h : Starless s.toList) : Clean s.toList ∧ placeholders s = 0 := by
  have hnil : occurrences placeholder.toList [] = 0 := by decide
  refine ⟨.plain h, ?_⟩
  unfold placeholders
  rw [← List.append_nil s.toList, occurrences_starless h (by decide), hnil]

theorem clean_placeholder : Clean placeholder.toList ∧ placeholders placeholder = 1 := by
  have hnil : Starless [] := by decide
  have := Clean.mark hnil (.plain hnil)
  rw [List.nil_append, List.append_nil] at this
  exact ⟨this, by decide⟩

theorem clean_append {s t : String} (hs : Clean s.toList) (ht : Clean t.toList) :
    Clean (s ++ t).toList ∧ placeholders (s ++ t) = placeholders s + placeholders t := by
  unfold placeholders
  rw [String.toList_append]
  exact ⟨hs.append ht, occurrences_append hs ht⟩

theorem clean_join {ss : List String} (h : ∀ s ∈ ss, Clean s.toList) :
    Clean (String.join ss).toList ∧ placeholders (String.join ss) = (ss.map placeholders).sum := by
  induction ss with
  | nil => exact clean_of_starless (by decide)
  | cons s ss ih =>
    obtain ⟨hc, hn⟩ := ih fun t ht => h t (List.mem_cons_of_mem _ ht)
    obtain ⟨hc', hn'⟩ := clean_append (h s List.mem_cons_self) hc
    rw [String.join_cons]
    exact ⟨hc', by rw [hn', hn]; rfl⟩

theorem clean_intercalate {sep : String} (hsep : Starless sep.toList) : ∀ {ss : List String},
    (∀ s ∈ ss, Clean s.toList) →
    Clean (sep.intercalate ss).toList ∧ placeholders (sep.intercalate ss) = (ss.map placeholders).sum
  | [], _ => by
    rw [String.intercalate_nil]
    exact clean_of_starless (by decide)
  | [s], h => by
    rw [String.intercalate_singleton]
    exact ⟨h s List.mem_cons_self, rfl⟩
  | s :: t :: ss, h => by
    obtain ⟨hc, hn⟩ := clean_intercalate hsep fun u hu => h u (List.mem_cons_of_mem _ hu)
    obtain ⟨hcs, hns⟩ := clean_of_starless hsep
    obtain ⟨hc₁, hn₁⟩ := clean_append (h s List.mem_cons_self) hcs
    obtain ⟨hc₂, hn₂⟩ := clean_append hc₁ hc
    rw [String.intercalate_cons_cons]
    refine ⟨hc₂, ?_⟩
    rw [hn₂, hn₁, hns, hn]
    rfl

/-! ## Modifiers -/

theorem Modifier.clean_keyword (m : Modifier) :
    Clean m.keyword.toList ∧ placeholders m.keyword = if m.isKnown then 0 else 1 := by
  cases m with
  | other token => exact clean_placeholder
  | _ => exact clean_of_starless (by decide)

def unknown (ms : List Modifier) : Nat :=
  ms.countP fun m => !m.isKnown

theorem sum_keywords (ms : List Modifier) : ((ms.map Modifier.keyword).map placeholders).sum = unknown ms := by
  induction ms with
  | nil => rfl
  | cons m ms ih =>
    rw [List.map_cons, List.map_cons, List.sum_cons, ih, m.clean_keyword.2, unknown, unknown, List.countP_cons]
    cases m.isKnown <;> simp [Nat.add_comm]

theorem clean_modifierText (o : Option (List Modifier)) :
    Clean (modifierText o).toList ∧ placeholders (modifierText o) = unknown (o.getD []) := by
  cases o with
  | none => exact clean_of_starless (by decide)
  | some ms =>
    have hkeys : ∀ s ∈ ms.map Modifier.keyword, Clean s.toList := by
      intro s hs
      obtain ⟨m, -, rfl⟩ := List.mem_map.mp hs
      exact m.clean_keyword.1
    have hblank : Starless " ".toList := by decide
    obtain ⟨hc, hn⟩ := clean_intercalate hblank hkeys
    obtain ⟨hb, hz⟩ := clean_of_starless hblank
    obtain ⟨hc', hn'⟩ := clean_append hc hb
    unfold modifierText
    refine ⟨hc', ?_⟩
    rw [hn', hn, hz, sum_keywords]
    rfl

/-! ## Forms -/

def Quiet (ps : List (Piece ν)) : Prop :=
  ∀ s, .text s ∈ ps → Starless s.toList

theorem quiet_nil : Quiet ([] : List (Piece ν)) := by
  intro s h
  cases h

theorem quiet_text {s : String} {ps : List (Piece ν)} : Quiet (.text s :: ps) ↔ Starless s.toList ∧ Quiet ps := by
  simp [Quiet]

theorem quiet_child {c : ν} {ps : List (Piece ν)} : Quiet (.child c :: ps) ↔ Quiet ps := by
  simp [Quiet]

theorem quiet_append {ps qs : List (Piece ν)} : Quiet (ps ++ qs) ↔ Quiet ps ∧ Quiet qs := by
  simp only [Quiet, List.mem_append, or_imp, forall_and]

theorem quiet_flatMap {α : Type} {row : α → List (Piece ν)} {as : List α} (h : ∀ a ∈ as, Quiet (row a)) :
    Quiet (as.flatMap row) := by
  intro s hs
  obtain ⟨a, ha, hr⟩ := List.mem_flatMap.mp hs
  exact h a ha s hr

theorem quiet_joined {sep : String} (hsep : Starless sep.toList) : ∀ {rows : List (List (Piece ν))},
    (∀ row ∈ rows, Quiet row) → Quiet (Piece.joined sep rows)
  | [], _ => quiet_nil
  | [row], h => h row List.mem_cons_self
  | row :: next :: rows, h => by
    have ih := quiet_joined hsep fun r hr => h r (List.mem_cons_of_mem row hr)
    exact quiet_append.mpr ⟨h row List.mem_cons_self, quiet_text.mpr ⟨hsep, ih⟩⟩

namespace Form

def modifiers : Form ν → List Modifier
  | typeDecl ms _ _ | function ms _ _ _ _ | member ms _ | property ms _ _ => ms.getD []
  | _ => []

/-- The texts that are rendered as they are. -/
def rawTexts : Form ν → List String
  | identifier name => [name]
  | operation _ op _ => [op]
  | stringLit v | numberLit v | booleanLit v => [v.raw]
  | property _ _ accessors => accessors.map (·.1.key)
  | _ => []

def lead : Form ν → List (Piece ν)
  | typeDecl ms _ _ | function ms _ _ _ _ | member ms _ | property ms _ _ => [.text (modifierText ms)]
  | unsupported => [.text placeholder]
  | _ => []

theorem starless_keyword {a : Accessor} (h : Starless a.key.toList) : Starless a.keyword.toList := by
  cases a with
  | other key =>
    intro hm
    rw [Accessor.keyword, String.toList_ofList] at hm
    exact h (List.mem_of_mem_take hm)
  | _ => decide

/-- All that may hold a placeholder of a form's own comes before the first child. -/
theorem exists_lead (closed : ν → Bool) {f : Form ν} (h : ∀ s ∈ f.rawTexts, Starless s.toList) :
    ∃ rest, f.pieces closed = f.lead ++ rest ∧ Quiet rest := by
  have hrows (cs : List ν) : ∀ row ∈ cs.map (fun c => [Piece.child c]), Quiet row := by
    intro row hr
    obtain ⟨c, -, rfl⟩ := List.mem_map.mp hr
    exact quiet_child.mpr quiet_nil
  cases f with
  | program body =>
    refine ⟨_, rfl, quiet_flatMap fun c _ => ?_⟩
    simp [quiet_child, quiet_text, quiet_nil, Starless]
  | block kind body =>
    refine ⟨_, rfl, ?_⟩
    have hbody : Quiet (body.flatMap fun c =>
        [Piece.child c, .text (if kind.isCode && !closed c then ";\n" else "\n")]) := by
      apply quiet_flatMap
      intro c _
      split <;> simp [quiet_child, quiet_text, quiet_nil, Starless]
    exact quiet_append.mpr ⟨quiet_text.mpr ⟨by decide, hbody⟩, quiet_text.mpr ⟨by decide, quiet_nil⟩⟩
  | function ms result name params body =>
    refine ⟨_, rfl, ?_⟩
    have hsep : Starless ", ".toList := by decide
    have hparams := quiet_joined hsep (hrows params)
    cases result <;> simp [quiet_append, quiet_text, quiet_child, quiet_nil, Starless, hparams]
  | property ms d accessors =>
    refine ⟨_, rfl, ?_⟩
    have haccessors : ∀ row ∈ accessors.map (fun b => [Piece.text b.1.keyword, .text " ", .child b.2, .text "\n"]),
        Quiet row := by
      intro row hr
      obtain ⟨b, hb, rfl⟩ := List.mem_map.mp hr
      have hkey := starless_keyword (h b.1.key (List.mem_map_of_mem hb))
      simp only [quiet_text, quiet_child]
      exact ⟨hkey, by decide, by decide, quiet_nil⟩
    have hsep : Starless "\n".toList := by decide
    have hmiddle := quiet_joined hsep haccessors
    have htail : Quiet (d.value.elim [] fun c => [Piece.text " = ", .child c, .text ";"]) := by
      cases d.value <;> simp [quiet_text, quiet_child, quiet_nil, Starless]
    refine quiet_child.mpr (quiet_append.mpr ⟨quiet_append.mpr ⟨?_, hmiddle⟩, ?_⟩)
    · simp [quiet_text, quiet_child, quiet_nil, Starless]
    · exact quiet_text.mpr ⟨by decide, htail⟩
  | declarator d =>
    refine ⟨_, rfl, ?_⟩
    cases d.value <;> simp [quiet_text, quiet_child, quiet_nil, Starless]
  | path curr next =>
    refine ⟨_, rfl, ?_⟩
    cases next <;> simp [quiet_text, quiet_child, quiet_nil, Starless]
  | call callee args =>
    refine ⟨_, rfl, ?_⟩
    have hsep : Starless ",".toList := by decide
    have hargs := quiet_joined hsep (hrows args)
    simp [quiet_append, quiet_text, quiet_child, quiet_nil, Starless, hargs]
  | unsupported => exact ⟨[], rfl, quiet_nil⟩
  | _ =>
    refine ⟨_, rfl, ?_⟩
    simp_all [quiet_text, quiet_child, quiet_nil, rawTexts, Starless]

def ownPlaceholders [DecidableEq ν] (f : Form ν) : Nat :=
  (if f = .unsupported then 1 else 0) + unknown f.modifiers

theorem nodes_lead (f : Form ν) : f.lead.flatMap Piece.nodes = [] := by
  cases f <;> rfl

theorem clean_lead [DecidableEq ν] (f : Form ν) (say : ν → String) :
    (∀ s ∈ f.lead.map (Piece.speak say), Clean s.toList) ∧
      ((f.lead.map (Piece.speak say)).map placeholders).sum = f.ownPlaceholders := by
  have hone {s : String} {k : Nat} (h : Clean s.toList ∧ placeholders s = k) :
      (∀ t ∈ [s], Clean t.toList) ∧ ([s].map placeholders).sum = k := by
    refine ⟨?_, h.2⟩
    intro t ht
    rw [List.mem_singleton.mp ht]
    exact h.1
  cases f with
  | typeDecl ms | function ms | member ms | property ms =>
    obtain ⟨hc, hn⟩ := hone (clean_modifierText ms)
    refine ⟨hc, hn.trans ?_⟩
    simp [ownPlaceholders, modifiers]
  | unsupported => exact hone clean_placeholder
  | _ => simp [lead, ownPlaceholders, modifiers, unknown]

end Form

theorem clean_rest (say : ν → String) {ps : List (Piece ν)} (hps : Quiet ps)
    (hsay : ∀ c ∈ ps.flatMap Piece.nodes, Clean (say c).toList) :
    (∀ s ∈ ps.map (Piece.speak say), Clean s.toList) ∧
      ((ps.map (Piece.speak say)).map placeholders).sum =
        ((ps.flatMap Piece.nodes).map fun c => placeholders (say c)).sum := by
  induction ps with
  | nil => simp
  | cons p ps ih =>
    cases p with
    | text s =>
      obtain ⟨hs, hps⟩ := quiet_text.mp hps
      obtain ⟨hc, hz⟩ := clean_of_starless hs
      obtain ⟨hcs, hn⟩ := ih hps hsay
      refine ⟨List.forall_mem_cons.mpr ⟨hc, hcs⟩, ?_⟩
      calc
        _ = placeholders s + ((ps.map (Piece.speak say)).map placeholders).sum := rfl
        _ = _ := by
          rw [hz, hn, Nat.zero_add]
          rfl
    | child c =>
      obtain ⟨hc, hsay⟩ := List.forall_mem_cons.mp hsay
      obtain ⟨hcs, hn⟩ := ih (quiet_child.mp hps) hsay
      exact ⟨List.forall_mem_cons.mpr ⟨hc, hcs⟩, congrArg (placeholders (say c) + ·) hn⟩

namespace Node

def unknownModifierCount : Node → Nat :=
  fold fun f => unknown f.modifiers + f.children.foldr (· + ·) 0

theorem unsupportedCount_mk (f : Form Node) : (mk f).unsupportedCount =
    (if f = .unsupported then 1 else 0) + (f.children.map unsupportedCount).sum := by
  have hmap : f.map unsupportedCount = .unsupported ↔ f = .unsupported := by
    cases f <;> simp [Form.map]
  unfold unsupportedCount at hmap ⊢
  rw [fold_mk, Form.children_map]
  simp only [hmap]
  rfl

theorem unknownModifierCount_mk (f : Form Node) : (mk f).unknownModifierCount =
    unknown f.modifiers + (f.children.map unknownModifierCount).sum := by
  have hmap : (f.map unknownModifierCount).modifiers = f.modifiers := by
    cases f <;> rfl
  unfold unknownModifierCount at hmap ⊢
  rw [fold_mk, Form.children_map, hmap]
  rfl

theorem unknownModifierCount_eq_zero {n : Node} :
    n.unknownModifierCount = 0 ↔ n.Everywhere fun m => ∀ x ∈ m.form.modifiers, x.isKnown = true := by
  induction n using Node.induct with
  | step f ih =>
    have hown : unknown f.modifiers = 0 ↔ ∀ x ∈ f.modifiers, x.isKnown = true := by simp [unknown]
    have hchildren : (f.children.map unknownModifierCount).sum = 0 ↔
        ∀ c ∈ f.children, c.Everywhere fun m => ∀ x ∈ m.form.modifiers, x.isKnown = true := by
      rw [List.sum_eq_zero_iff_forall_eq_nat, List.forall_mem_map]
      exact forall₂_congr ih
    rw [unknownModifierCount_mk, Nat.add_eq_zero_iff, hown, hchildren, everywhere_mk]
    rfl

theorem clean_render {n : Node} (h : n.Everywhere fun m => ∀ s ∈ m.form.rawTexts, Starless s.toList) :
    Clean n.render.toList ∧ placeholders n.render = n.unsupportedCount + n.unknownModifierCount := by
  induction n using Node.induct with
  | step f ih =>
    obtain ⟨hown, hchildren⟩ := everywhere_mk.mp h
    obtain ⟨rest, hpieces, hrest⟩ := Form.exists_lead (f := f) closed hown
    have hnodes : rest.flatMap Piece.nodes = f.children := by
      rw [← Form.nodes_pieces closed f, hpieces, List.flatMap_append, Form.nodes_lead, List.nil_append]
    obtain ⟨hlc, hln⟩ := f.clean_lead render
    obtain ⟨hrc, hrn⟩ := clean_rest render hrest fun c hc => by
      rw [hnodes] at hc
      exact (ih c hc (hchildren c hc)).1
    have hcounts : (f.children.map fun c => placeholders c.render) =
        f.children.map fun c => c.unsupportedCount + c.unknownModifierCount := by
      apply List.map_congr_left
      intro c hc
      exact (ih c hc (hchildren c hc)).2
    have hall : ∀ s ∈ (f.lead ++ rest).map (Piece.speak render), Clean s.toList := by
      intro s hs
      rw [List.map_append] at hs
      exact (List.mem_append.mp hs).elim (hlc s) (hrc s)
    obtain ⟨hc, hn⟩ := clean_join hall
    rw [render_mk, hpieces]
    refine ⟨hc, ?_⟩
    rw [hn, List.map_append, List.map_append, List.sum_append, hln, hrn, hnodes, hcounts, List.sum_map_add,
      unsupportedCount_mk, unknownModifierCount_mk, Form.ownPlaceholders]
    omega

/-- The placeholders in the text of a tree are as many as its nodes of no known kind and its modifiers of no
known meaning, if no name, operator, literal or accessor key in it has a star. -/
theorem placeholders_render {n : Node} (h : n.Everywhere fun m => ∀ s ∈ m.form.rawTexts, Starless s.toList) :
    placeholders n.render = n.unsupportedCount + n.unknownModifierCount :=
  (clean_render h).2

theorem placeholders_render_member :
    placeholders (render (mk (.member (some [.pub, .other "late"]) (mk (.declarator ⟨mk .unsupported,
      mk (.identifier "x"), some (mk (.operation (mk .unsupported) "/" (mk .unsupported)))⟩))))) = 4 := by
  refine (placeholders_render ?_).trans (by decide)
  simp [everywhere_mk, Form.children, Declarator.children, Form.rawTexts, Node.form, Starless]

end Node

end SharpTree
