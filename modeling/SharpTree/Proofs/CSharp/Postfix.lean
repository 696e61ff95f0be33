import SharpTree.Node.Schema
import SharpTree.Proofs.CSharp.Pieces

/-!
# Postfix expressions and their texts

Member names, indices and arguments follow the expression that they belong to,
so the text of an expression is read from its end: the last character tells
which of them comes last, and the bracket that it closes tells where that began.
Commas outside of all brackets separate the arguments. So an expression of this
kind can be read back from its text in one way only (`postfix_render_eq_iff`).
-/

namespace SharpTree

/-! ## Depth -/

def bracketWeight (c : Char) : Int :=
  if c = '(' ∨ c = '[' then 1 else if c = ')' ∨ c = ']' then -1 else 0

/-- The number of brackets that a text opens and does not close. -/
def bracketDepth : List Char → Int
  | [] => 0
  | c :: w => bracketWeight c + bracketDepth w

theorem bracketDepth_append (u v : List Char) : bracketDepth (u ++ v) = bracketDepth u + bracketDepth v := by
  induction u with
  | nil => exact (Int.zero_add _).symm
  | cons c u ih => rw [List.cons_append, bracketDepth, bracketDepth, ih, Int.add_assoc]

/-- A text that closes the brackets that it opens and no others. -/
structure Balanced (w : List Char) : Prop where
  ends : bracketDepth w = 0
  above : ∀ u v, w = u ++ v → 0 ≤ bracketDepth u

/-- A balanced text with no comma outside of its brackets. -/
structure Unbroken (w : List Char) : Prop extends Balanced w where
  comma : ∀ u v, w = u ++ ',' :: v → 0 < bracketDepth u

section

variable {u v w : List Char}

theorem Balanced.append (hv : Balanced v) (hw : Balanced w) : Balanced (v ++ w) := by
  refine ⟨by rw [bracketDepth_append, hv.ends, hw.ends]; rfl, fun x y h => ?_⟩
  obtain ⟨z, rfl, -⟩ | ⟨z, rfl, -⟩ := List.append_eq_append_iff.mp h
  · have hz := hw.above z y (by simpa using h)
    rw [bracketDepth_append, hv.ends, Int.zero_add]
    exact hz
  · exact hv.above x z rfl

theorem Unbroken.append (hv : Unbroken v) (hw : Unbroken w) : Unbroken (v ++ w) := by
  refine ⟨hv.toBalanced.append hw.toBalanced, fun x y h => ?_⟩
  obtain ⟨z, rfl, hz⟩ | ⟨z, rfl, hz⟩ := List.append_eq_append_iff.mp h
  · have hdepth := hw.comma z y hz
    rw [bracketDepth_append, hv.ends, Int.zero_add]
    exact hdepth
  · cases z with
    | nil =>
      have hdepth := hw.comma [] y hz.symm
      cases hdepth
    | cons c z =>
      cases hz
      exact hv.comma x z rfl

theorem unbroken_of_plain (h : ∀ c ∈ w, bracketWeight c = 0 ∧ c ≠ ',') : Unbroken w := by
  have hdepth (x : List Char) (hx : ∀ c ∈ x, bracketWeight c = 0) : bracketDepth x = 0 := by
    induction x with
    | nil => rfl
    | cons c x ih =>
      obtain ⟨hc, hx⟩ := List.forall_mem_cons.mp hx
      rw [bracketDepth, hc, ih hx]
      rfl
  refine ⟨⟨hdepth w fun c hc => (h c hc).1, ?_⟩, ?_⟩
  · rintro x y rfl
    exact Int.le_of_eq (hdepth x fun c hc => (h c (List.mem_append_left y hc)).1).symm
  · rintro x y rfl
    exact absurd rfl (h ',' (by simp)).2

theorem Balanced.wrap {o c : Char} (ho : bracketWeight o = 1) (hc : bracketWeight c = -1) (hw : Balanced w) :
    Unbroken (o :: (w ++ [c])) := by
  have hcomma : bracketWeight ',' = 0 := by decide
  -- what comes before the last bracket is the opening one and a part of the balanced text
  have hinner : ∀ x y, w ++ [c] = x ++ y → y ≠ [] → 0 ≤ bracketDepth x := by
    intro x y h hy
    obtain ⟨z, rfl, hz⟩ | ⟨z, rfl, -⟩ := List.append_eq_append_iff.mp h
    · cases z with
      | nil => exact Int.le_of_eq ((congrArg bracketDepth (List.append_nil w)).trans hw.ends).symm
      | cons d z =>
        simp only [List.cons_append, List.cons.injEq] at hz
        exact absurd (List.append_eq_nil_iff.mp hz.2.symm).2 hy
    · exact hw.above x z rfl
  refine ⟨⟨?_, fun x y h => ?_⟩, fun x y h => ?_⟩
  · rw [bracketDepth, bracketDepth_append, hw.ends, ho, bracketDepth, hc]
    rfl
  · cases x with
    | nil => exact Int.le_refl 0
    | cons d x =>
      simp only [List.cons_append, List.cons.injEq] at h
      obtain ⟨rfl, h⟩ := h
      by_cases hy : y = []
      · subst hy
        rw [List.append_nil] at h
        rw [bracketDepth, ← h, bracketDepth_append, hw.ends, ho, bracketDepth, hc]
        exact Int.le_refl 0
      · have := hinner x y h hy
        rw [bracketDepth, ho]
        omega
  · cases x with
    | nil =>
      cases h
      rw [hcomma] at ho
      cases ho
    | cons d x =>
      simp only [List.cons_append, List.cons.injEq] at h
      obtain ⟨rfl, h⟩ := h
      have := hinner x _ h (by simp)
      rw [bracketDepth, ho]
      omega

end

/-! ## Where a text splits -/

section

variable {a b p q : List Char} {c : Char}

theorem append_cons_cases (h : a ++ c :: p = b ++ c :: q) :
    (a = b ∧ p = q) ∨ (∃ z, b = a ++ c :: z ∧ p = z ++ c :: q) ∨ ∃ z, a = b ++ c :: z ∧ q = z ++ c :: p := by
  obtain ⟨z, rfl, hz⟩ | ⟨z, rfl, hz⟩ := List.append_eq_append_iff.mp h
  · cases z with
    | nil =>
      cases hz
      exact .inl ⟨by simp, rfl⟩
    | cons d z =>
      cases hz
      exact .inr (.inl ⟨z, rfl, rfl⟩)
  · cases z with
    | nil =>
      cases hz
      exact .inl ⟨by simp, rfl⟩
    | cons d z =>
      cases hz
      exact .inr (.inr ⟨z, rfl, rfl⟩)

theorem Balanced.ne_open (hp : Balanced p) (hq : Balanced q) (hc : bracketWeight c = 1) (z : List Char) :
    p ≠ z ++ c :: q := by
  rintro rfl
  have hz := hp.above z _ rfl
  have hends := hp.ends
  rw [bracketDepth_append, bracketDepth, hc, hq.ends] at hends
  omega

/-- Before a balanced text, the last bracket that is open is found in one way. -/
theorem Balanced.split (hp : Balanced p) (hq : Balanced q) (hc : bracketWeight c = 1)
    (h : a ++ c :: p = b ++ c :: q) : a = b ∧ p = q := by
  obtain h | ⟨z, -, hz⟩ | ⟨z, -, hz⟩ := append_cons_cases h
  · exact h
  · exact absurd hz (hp.ne_open hq hc z)
  · exact absurd hz (hq.ne_open hp hc z)

theorem Unbroken.ne_comma (ha : Unbroken a) (hb : Unbroken b) (z : List Char) : a ≠ b ++ ',' :: z := by
  rintro rfl
  have := ha.comma b z rfl
  rw [hb.ends] at this
  cases this

/-- After an unbroken text, the first comma is found in one way. -/
theorem Unbroken.split (ha : Unbroken a) (hb : Unbroken b) (h : a ++ ',' :: p = b ++ ',' :: q) : a = b ∧ p = q := by
  obtain h | ⟨z, hz, -⟩ | ⟨z, hz, -⟩ := append_cons_cases h
  · exact h
  · exact absurd hz (hb.ne_comma ha z)
  · exact absurd hz (ha.ne_comma hb z)

end

/-- Texts of arguments. None is empty, so that no argument is not one empty argument. -/
def Arguments (ws : List (List Char)) : Prop :=
  ∀ w ∈ ws, Unbroken w ∧ w ≠ []

theorem balanced_intercalate {ws : List (List Char)} (h : Arguments ws) : Balanced ([','].intercalate ws) := by
  have hcomma : Balanced [','] := by
    refine ⟨by decide, fun u v huv => ?_⟩
    cases u with
    | nil => exact Int.le_refl 0
    | cons c u =>
      simp only [List.cons_append, List.cons.injEq] at huv
      obtain ⟨rfl, huv⟩ := huv
      rw [(List.append_eq_nil_iff.mp huv.symm).1]
      decide
  induction ws with
  | nil => exact (unbroken_of_plain (by simp)).toBalanced
  | cons w ws ih =>
    obtain ⟨hw, hws⟩ := List.forall_mem_cons.mp h
    cases ws with
    | nil => simpa using hw.1.toBalanced
    | cons w' ws =>
      rw [List.intercalate_cons_cons]
      exact (hw.1.toBalanced.append hcomma).append (ih hws)

theorem arguments_of_intercalate {ws xs : List (List Char)} (hw : Arguments ws) (hx : Arguments xs)
    (h : [','].intercalate ws = [','].intercalate xs) : ws = xs := by
  induction ws generalizing xs with
  | nil =>
    cases xs with
    | nil => rfl
    | cons x xs =>
      have hne := (hx x List.mem_cons_self).2
      cases xs with
      | nil => exact absurd (by simpa using h.symm) hne
      | cons x' xs => simp [List.intercalate_cons_cons] at h
  | cons w ws ih =>
    obtain ⟨hfirst, hws⟩ := List.forall_mem_cons.mp hw
    cases xs with
    | nil =>
      cases ws with
      | nil => exact absurd (by simpa using h) hfirst.2
      | cons w' ws => simp [List.intercalate_cons_cons] at h
    | cons x xs =>
      obtain ⟨hfirst', hxs⟩ := List.forall_mem_cons.mp hx
      cases ws with
      | nil =>
        cases xs with
        | nil => simpa using h
        | cons x' xs =>
          rw [List.intercalate_cons_cons, List.append_assoc] at h
          exact absurd (by simpa using h) (hfirst.1.ne_comma hfirst'.1 _)
      | cons w' ws =>
        cases xs with
        | nil =>
          rw [List.intercalate_cons_cons, List.append_assoc] at h
          exact absurd (by simpa using h.symm) (hfirst'.1.ne_comma hfirst.1 _)
        | cons x' xs =>
          rw [List.intercalate_cons_cons, List.intercalate_cons_cons, List.append_assoc, List.append_assoc] at h
          obtain ⟨rfl, hrest⟩ := hfirst.1.split hfirst'.1 h
          rw [ih hws hxs hrest]

namespace Node

/-! ## Expressions -/

def punctuation : List Char :=
  ['.', ',', '(', ')', '[', ']']

/-- A name, where `word` tells the characters of names. -/
def IsName (word : Char → Bool) (s : String) : Prop :=
  s ≠ "" ∧ s.toList.all word = true

/-- Expressions of names, members, elements and calls. -/
inductive Postfix (word : Char → Bool) : Node → Prop where
  | name {s : String} (hs : IsName word s) : Postfix word (mk (.identifier s))
  | member {e : Node} {s : String} (he : Postfix word e) (hs : IsName word s) :
    Postfix word (mk (.access e (mk (.identifier s))))
  | element {e i : Node} (he : Postfix word e) (hi : Postfix word i) : Postfix word (mk (.index e i))
  | call {e : Node} {args : List Node} (he : Postfix word e) (hargs : ∀ a ∈ args, Postfix word a) :
    Postfix word (mk (.call e args))

theorem toList_name (s : String) : (render (mk (.identifier s))).toList = s.toList :=
  congrArg String.toList (render_eq_text _)

theorem toList_member (e : Node) (s : String) :
    (render (mk (.access e (mk (.identifier s))))).toList = e.render.toList ++ '.' :: s.toList := by
  have hs : (mk (.identifier s)).fragment.text = s := render_eq_text _
  rw [render_eq_text, Form.map, Form.text, hs]
  simp [render]

theorem toList_element (e i : Node) :
    (render (mk (.index e i))).toList = e.render.toList ++ '[' :: (i.render.toList ++ [']']) := by
  rw [render_eq_text, Form.map, Form.text]
  simp [render]

theorem toList_call (e : Node) (args : List Node) : (render (mk (.call e args))).toList =
    e.render.toList ++ '(' :: ([','].intercalate (args.map fun a => a.render.toList) ++ [')']) := by
  rw [render_eq_text, Form.map, Form.text]
  simp [render, String.toList_intercalate, Function.comp_def]

section

variable {word : Char → Bool} {m n : Node}

theorem IsName.not_mem {s : String} (h : IsName word s) (hword : punctuation.any word = false) {c : Char}
    (hc : c ∈ punctuation) : c ∉ s.toList := by
  intro hs
  exact List.any_eq_false.mp hword c hc (List.all_eq_true.mp h.2 c hs)

theorem IsName.plain {s : String} (h : IsName word s) (hword : punctuation.any word = false) :
    ∀ c ∈ s.toList, bracketWeight c = 0 ∧ c ≠ ',' := by
  intro c hc
  have hnot : c ∉ punctuation := fun hp => h.not_mem hword hp hc
  simp only [punctuation, List.mem_cons, List.not_mem_nil, or_false, not_or] at hnot
  exact ⟨by simp [bracketWeight, hnot], hnot.2.1⟩

theorem IsName.toList_ne_nil {s : String} (h : IsName word s) : s.toList ≠ [] :=
  fun hs => h.1 (String.toList_eq_nil_iff.mp hs)

theorem Postfix.render_ne_nil (h : n.Postfix word) : n.render.toList ≠ [] := by
  cases h with
  | name hs =>
    rw [toList_name]
    exact hs.toList_ne_nil
  | member => simp [toList_member]
  | element => simp [toList_element]
  | call => simp [toList_call]

theorem Postfix.unbroken (h : n.Postfix word) (hword : punctuation.any word = false) :
    Unbroken n.render.toList := by
  induction h with
  | name hs =>
    rw [toList_name]
    exact unbroken_of_plain (hs.plain hword)
  | member he hs ih =>
    rw [toList_member]
    exact ih.append (unbroken_of_plain (List.forall_mem_cons.mpr ⟨by decide, hs.plain hword⟩))
  | element he hi ihe ihi =>
    rw [toList_element]
    exact ihe.append (ihi.toBalanced.wrap (by decide) (by decide))
  | @call e args he hargs ihe ih =>
    have hwords : Arguments (args.map fun a => a.render.toList) :=
      List.forall_mem_map.mpr fun a ha => ⟨ih a ha, (hargs a ha).render_ne_nil⟩
    rw [toList_call]
    exact ihe.append ((balanced_intercalate hwords).wrap (by decide) (by decide))

theorem Postfix.arguments {args : List Node} (h : ∀ a ∈ args, a.Postfix word)
    (hword : punctuation.any word = false) : Arguments (args.map fun a => a.render.toList) :=
  List.forall_mem_map.mpr fun a ha => ⟨(h a ha).unbroken hword, (h a ha).render_ne_nil⟩

/-! ## Reading back -/

def kindOfText (w : List Char) : Kind :=
  if w.getLast? = some ']' then .index
  else if w.getLast? = some ')' then .call
  else if '.' ∈ w then .access
  else .identifier

theorem IsName.getLast?_ne {s : String} (hs : IsName word s) (hword : punctuation.any word = false) {c : Char}
    (hc : c ∈ punctuation) (w : List Char) : (w ++ s.toList).getLast? ≠ some c := by
  intro hlast
  obtain ⟨d, hd⟩ := List.getLast?_isSome.mpr hs.toList_ne_nil |> Option.isSome_iff_exists.mp
  rw [List.getLast?_append, hd, Option.some_or] at hlast
  cases hlast
  exact hs.not_mem hword hc (List.mem_of_getLast? hd)

theorem Postfix.kind_eq (h : n.Postfix word) (hword : punctuation.any word = false) :
    n.kind = kindOfText n.render.toList := by
  unfold kindOfText
  cases h with
  | @name s hs =>
    have hlast {c : Char} (hc : c ∈ punctuation) : s.toList.getLast? ≠ some c := hs.getLast?_ne hword hc []
    rw [toList_name, if_neg (hlast (by decide)), if_neg (hlast (by decide)), if_neg (hs.not_mem hword (by decide))]
    rfl
  | @member e s he hs =>
    have hlast {c : Char} (hc : c ∈ punctuation) : (e.render.toList ++ '.' :: s.toList).getLast? ≠ some c := by
      simpa using hs.getLast?_ne hword hc (e.render.toList ++ ['.'])
    rw [toList_member, if_neg (hlast (by decide)), if_neg (hlast (by decide)), if_pos (by simp)]
    rfl
  | element =>
    rw [toList_element, ← List.cons_append, ← List.append_assoc, List.getLast?_concat, if_pos rfl]
    rfl
  | call =>
    rw [toList_call, ← List.cons_append, ← List.append_assoc, List.getLast?_concat, if_neg (by decide), if_pos rfl]
    rfl

theorem Postfix.kind_congr (hm : m.Postfix word) (hn : n.Postfix word) (hword : punctuation.any word = false)
    (h : m.render.toList = n.render.toList) : m.kind = n.kind := by
  rw [hm.kind_eq hword, hn.kind_eq hword, h]

theorem map_inj_on {α β : Type} {f : α → β} {as bs : List α} (h : as.map f = bs.map f)
    (hf : ∀ a ∈ as, ∀ b ∈ bs, f a = f b → a = b) : as = bs := by
  induction as generalizing bs with
  | nil => exact (List.map_eq_nil_iff.mp h.symm).symm
  | cons a as ih =>
    cases bs with
    | nil => cases h
    | cons b bs =>
      obtain ⟨hab, hrest⟩ := List.cons.inj h
      rw [hf a List.mem_cons_self b List.mem_cons_self hab,
        ih hrest fun a ha b hb => hf a (List.mem_cons_of_mem _ ha) b (List.mem_cons_of_mem _ hb)]

/-- What comes last in the text was applied last, so the expression is taken apart from its end. -/
theorem Postfix.eq_of_render (hm : m.Postfix word) (hn : n.Postfix word) (hword : punctuation.any word = false)
    (h : m.render.toList = n.render.toList) : m = n := by
  induction hm generalizing n with
  | name hs =>
    have hkind := (Postfix.name hs).kind_congr hn hword h
    cases hn with
    | name =>
      rw [toList_name, toList_name] at h
      rw [String.toList_inj.mp h]
    | _ => cases hkind
  | member he hs ih =>
    have hkind := (Postfix.member he hs).kind_congr hn hword h
    cases hn with
    | member he' hs' =>
      rw [toList_member, toList_member] at h
      have hdot : '.' ∈ punctuation := by decide
      obtain ⟨hleft, hright⟩ | ⟨z, -, hz⟩ | ⟨z, -, hz⟩ := append_cons_cases h
      · rw [ih he' hleft, String.toList_inj.mp hright]
      · exact absurd (by simp [hz]) (hs.not_mem hword hdot)
      · exact absurd (by simp [hz]) (hs'.not_mem hword hdot)
    | _ => cases hkind
  | element he hi ihe ihi =>
    have hkind := (Postfix.element he hi).kind_congr hn hword h
    cases hn with
    | element he' hi' =>
      rw [toList_element, toList_element, ← List.cons_append, ← List.cons_append, ← List.append_assoc,
        ← List.append_assoc] at h
      obtain ⟨hleft, hright⟩ := (hi.unbroken hword).toBalanced.split (hi'.unbroken hword).toBalanced (by decide)
        (List.append_cancel_right h)
      rw [ihe he' hleft, ihi hi' hright]
    | _ => cases hkind
  | call he hargs ihe ih =>
    have hkind := (Postfix.call he hargs).kind_congr hn hword h
    cases hn with
    | call he' hargs' =>
      rw [toList_call, toList_call, ← List.cons_append, ← List.cons_append, ← List.append_assoc,
        ← List.append_assoc] at h
      have hwords := arguments hargs hword
      have hwords' := arguments hargs' hword
      obtain ⟨hleft, hright⟩ := (balanced_intercalate hwords).split (balanced_intercalate hwords') (by decide)
        (List.append_cancel_right h)
      have hmap := arguments_of_intercalate hwords hwords' hright
      rw [ihe he' hleft, map_inj_on hmap fun a ha b hb hab => ih a ha (hargs' b hb) hab]
    | _ => cases hkind

/-- Two postfix expressions have the same text only if they are the same. -/
theorem postfix_render_eq_iff (hword : punctuation.any word = false) (hm : m.Postfix word) (hn : n.Postfix word) :
    m.render = n.render ↔ m = n :=
  ⟨fun h => hm.eq_of_render hn hword (congrArg String.toList h), congrArg render⟩

end

/-- Two arguments of one call are not an argument each of two calls: `f(a,b_1)` is not `f(a)(b_1)`. -/
theorem postfix_render_eq_iff_calls :
    render (mk (.call (mk (.identifier "f")) [mk (.identifier "a"), mk (.identifier "b_1")])) ≠
      render (mk (.call (mk (.call (mk (.identifier "f")) [mk (.identifier "a")])) [mk (.identifier "b_1")])) := by
  have hname {s : String} (hs : IsName (fun c => c.isAlphanum || c = '_') s) := Postfix.name hs
  have hf := hname (s := "f") ⟨by decide, by decide⟩
  have ha := hname (s := "a") ⟨by decide, by decide⟩
  have hb := hname (s := "b_1") ⟨by decide, by decide⟩
  have hone := Postfix.call hf (List.forall_mem_cons.mpr ⟨ha, List.forall_mem_singleton.mpr hb⟩)
  have htwo := Postfix.call (Postfix.call hf (List.forall_mem_singleton.mpr ha)) (List.forall_mem_singleton.mpr hb)
  intro h
  exact absurd ((postfix_render_eq_iff (by decide) hone htwo).mp h) (by decide)

end Node

end SharpTree
