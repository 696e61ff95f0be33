import SharpTree.Proofs.Json.Grammar
import SharpTree.Proofs.Json.Magnitude
import SharpTree.Proofs.Source.Tree

/-!
# Refused values

A text that holds a JSON value is refused for one of two reasons only: the value
nests too deeply, or its tag is not where the outermost node needs it
(`root_settles`). The readers of lists and objects are treated for any reader of
their parts, which reads each part or fails with a fault that the part explains.
-/

namespace SharpTree

open Json

namespace Source

open Json.Value (Spells SpellsItems SpellsMembers nesting nestingItems nestingMembers)

/-- A step that gives a result or ends with a fault of some sort. -/
def Ends {α : Type} (E : Fault → Prop) (a : α) (x : Except Fault α) : Prop :=
  x = .ok a ∨ ∃ f, E f ∧ x = .error f

section

variable {α β : Type} {E E' : Fault → Prop} {a : α} {b : β} {x : Except Fault α} {g : α → Except Fault β}

theorem Ends.ok : Ends E a (.ok a) :=
  .inl rfl

theorem Ends.mono (h : Ends E a x) (hE : ∀ f, E f → E' f) : Ends E' a x :=
  h.imp_right fun ⟨f, hf, e⟩ => ⟨f, hE f hf, e⟩

theorem Ends.bind (h : Ends E a x) (hg : Ends E b (g a)) : Ends E b (x >>= g) := by
  rcases h with rfl | ⟨f, hf, rfl⟩
  · exact hg
  · exact .inr ⟨f, hf, rfl⟩

end

/-! ## Lists -/

/-- The reader reads every value, or fails with a fault that the value explains. -/
def Settles (E : Value → Fault → Prop) (item : Reader Value) : Prop :=
  ∀ ⦃v : Value⦄ ⦃b w rest : List Char⦄, Blanks b → v.Spells w → Boundary rest →
    Ends (E v) (v, rest) (item (b ++ (w ++ rest)))

section Lists

variable {E : Value → Fault → Prop} {item : Reader Value}

theorem moreItems_settles (hi : Settles E item) (rest : List Char) {bound w : List Char} {vs : List Value}
    (h : SpellsItems false vs w) (hl : vs.length < bound.length) :
    Ends (fun f => ∃ v ∈ vs, E v f) (vs, rest) (moreItems item bound (w ++ rest)) := by
  induction vs generalizing bound w with
  | nil =>
    obtain ⟨b, hb, rfl⟩ := h
    obtain ⟨_, bound, rfl⟩ := List.exists_cons_of_length_pos hl
    left
    rw [List.append_assoc]
    simp only [moreItems, List.cons_append, skipBlanks_lead hb (show isBlank ']' = false by decide)]
    rfl
  | cons v vs ih =>
    obtain ⟨lead, x, more, ⟨b₁, b₂, hb₁, hb₂, rfl⟩, hx, hm, rfl⟩ := h
    obtain ⟨_, bound, rfl⟩ := List.exists_cons_of_length_pos (Nat.zero_lt_of_lt hl)
    have hitem := hi blanks_nil hx (boundary_items hm rest)
    have hmore := ih hm (Nat.lt_of_succ_lt_succ hl)
    obtain ⟨c, t, rfl, hc, hne, -⟩ := spells_cons hx
    simp only [List.nil_append, List.cons_append] at hitem
    simp only [List.append_assoc, List.cons_append, moreItems,
      skipBlanks_lead hb₁ (show isBlank ',' = false by decide), skipBlanks_lead hb₂ hc, hne, if_false, if_true,
      show (',' = ']') = False by decide]
    refine (hitem.mono fun f hf => ⟨v, List.mem_cons_self, hf⟩).bind ((hmore.mono ?_).bind .ok)
    rintro f ⟨u, hu, hf⟩
    exact ⟨u, List.mem_cons_of_mem _ hu, hf⟩

theorem list_settles (hi : Settles E item) (rest : List Char) {w : List Char} {vs : List Value}
    (h : SpellsItems true vs w) :
    Ends (fun f => ∃ v ∈ vs, E v f) (vs, rest) (list item (w ++ rest)) := by
  cases vs with
  | nil =>
    obtain ⟨b, hb, rfl⟩ := h
    left
    rw [List.append_assoc]
    simp only [list, List.cons_append, skipBlanks_lead hb (show isBlank ']' = false by decide)]
    rfl
  | cons v vs =>
    obtain ⟨lead, x, more, hlead, hx, hm, rfl⟩ := h
    have hl : vs.length < (more ++ rest).length := by
      have := length_lt_of_items hm
      rw [List.length_append]
      omega
    have hitem := hi blanks_nil hx (boundary_items hm rest)
    have hmore := moreItems_settles hi rest hm hl
    obtain ⟨c, t, rfl, hc, hne, -⟩ := spells_cons hx
    simp only [List.nil_append, List.cons_append] at hitem
    simp only [List.append_assoc, List.cons_append, list, skipBlanks_lead hlead hc, hne, if_false]
    refine (hitem.mono fun f hf => ⟨v, List.mem_cons_self, hf⟩).bind ((hmore.mono ?_).bind .ok)
    rintro f ⟨u, hu, hf⟩
    exact ⟨u, List.mem_cons_of_mem _ hu, hf⟩

end Lists

/-! ## Objects -/

/-- Some member explains a fault in view of the keys before it. -/
def Breaks (E : List String → String → Value → Fault → Prop) : List String → List (String × Value) → Fault → Prop
  | _, [], _ => False
  | before, (k, v) :: ms, f => E before k v f ∨ Breaks E (k :: before) ms f

def MembersSettle (E : List String → String → Value → Fault → Prop)
    (member : List String → String → Reader Value) : Prop :=
  ∀ ⦃before : List String⦄ ⦃key : String⦄ ⦃v : Value⦄ ⦃b₁ b₂ w rest : List Char⦄,
    Blanks b₁ → Blanks b₂ → v.Spells w →
    Boundary rest → Ends (E before key v) (v, rest) (member before key (b₁ ++ ':' :: (b₂ ++ (w ++ rest))))

section Objects

variable {E : List String → String → Value → Fault → Prop} {member : List String → String → Reader Value}

theorem moreMembers_settles (hm : MembersSettle E member) (rest : List Char) (before : List String)
    {bound w : List Char} {ms : List (String × Value)} (h : SpellsMembers false ms w)
    (hl : ms.length < bound.length) :
    Ends (Breaks E before ms) (ms, rest) (moreMembers member bound before (w ++ rest)) := by
  induction ms generalizing bound w before with
  | nil =>
    obtain ⟨b, hb, rfl⟩ := h
    obtain ⟨_, bound, rfl⟩ := List.exists_cons_of_length_pos hl
    left
    rw [List.append_assoc]
    simp only [moreMembers, List.cons_append, skipBlanks_lead hb (show isBlank '}' = false by decide)]
    rfl
  | cons m ms ih =>
    obtain ⟨lead, key, b₃, b₄, x, more, ⟨b₁, b₂, hb₁, hb₂, rfl⟩, hk, hb₃, hb₄, hx, hmore, rfl⟩ := h
    obtain ⟨_, bound, rfl⟩ := List.exists_cons_of_length_pos (Nat.zero_lt_of_lt hl)
    obtain ⟨y, hy, rfl⟩ := hk
    have hkey := string_read ⟨y, hy, rfl⟩ (b₃ ++ ':' :: (b₄ ++ (x ++ (more ++ rest))))
    have hmember := @hm before m.1 _ _ _ _ _ hb₃ hb₄ hx (boundary_members hmore rest)
    have hmore := ih (m.1 :: before) hmore (Nat.lt_of_succ_lt_succ hl)
    simp only [List.append_assoc, List.cons_append, List.nil_append] at hkey
    simp only [List.append_assoc, List.cons_append, List.nil_append, moreMembers,
      skipBlanks_lead hb₁ (show isBlank ',' = false by decide),
      skipBlanks_lead hb₂ (show isBlank '"' = false by decide), if_false, if_true,
      show (',' = '}') = False by decide, hkey]
    exact Ends.bind .ok ((hmember.mono fun f hf => .inl hf).bind ((hmore.mono fun f hf => .inr hf).bind .ok))

theorem object_settles (hm : MembersSettle E member) (rest : List Char) {w : List Char} {ms : List (String × Value)}
    (h : SpellsMembers true ms w) : Ends (Breaks E [] ms) (ms, rest) (object member (w ++ rest)) := by
  cases ms with
  | nil =>
    obtain ⟨b, hb, rfl⟩ := h
    left
    rw [List.append_assoc]
    simp only [object, List.cons_append, skipBlanks_lead hb (show isBlank '}' = false by decide)]
    rfl
  | cons m ms =>
    obtain ⟨lead, key, b₃, b₄, x, more, hlead, hk, hb₃, hb₄, hx, hmore, rfl⟩ := h
    obtain ⟨y, hy, rfl⟩ := hk
    have hl : ms.length < (more ++ rest).length := by
      have := length_lt_of_members hmore
      rw [List.length_append]
      omega
    have hkey := string_read ⟨y, hy, rfl⟩ (b₃ ++ ':' :: (b₄ ++ (x ++ (more ++ rest))))
    have hmember := @hm [] m.1 _ _ _ _ _ hb₃ hb₄ hx (boundary_members hmore rest)
    have hmore := moreMembers_settles hm rest [m.1] hmore hl
    simp only [List.append_assoc, List.cons_append, List.nil_append] at hkey
    simp only [List.append_assoc, List.cons_append, List.nil_append, object,
      skipBlanks_lead hlead (show isBlank '"' = false by decide), if_false, if_true,
      show ('"' = '}') = False by decide, hkey]
    exact Ends.bind .ok ((hmember.mono fun f hf => .inl hf).bind ((hmore.mono fun f hf => .inr hf).bind .ok))

end Objects

/-! ## Values -/

def TooNested (d : Nat) (v : Value) (f : Fault) : Prop :=
  f.cause = .tooDeep ∧ d < v.nesting

theorem breaks_nested {d : Nat} {f : Fault} {before : List String} {ms : List (String × Value)}
    (h : Breaks (fun _ _ => TooNested d) before ms f) : TooNested (d + 1) (.obj ms) f := by
  induction ms generalizing before with
  | nil => exact h.elim
  | cons m ms ih =>
    simp only [TooNested, nesting, nestingMembers]
    rcases h with ⟨hf, hn⟩ | h
    · exact ⟨hf, by omega⟩
    · obtain ⟨hf, hn⟩ := ih h
      simp only [nesting] at hn
      exact ⟨hf, by omega⟩

theorem item_nested {d : Nat} {f : Fault} {vs : List Value} (h : ∃ v ∈ vs, TooNested d v f) :
    TooNested (d + 1) (.arr vs) f := by
  obtain ⟨v, hv, hf, hn⟩ := h
  have := Value.nestingItems_le.mp (Nat.le_refl _) v hv
  exact ⟨hf, by simp only [nesting]; omega⟩

theorem afterColon_settles {E : Value → Fault → Prop} {item : Reader Value} (hi : Settles E item) :
    MembersSettle (fun _ _ => E) fun _ _ => afterColon item := by
  intro before key v b₁ b₂ w rest hb₁ hb₂ hw hr
  simp only [afterColon_read hb₁]
  exact hi hb₂ hw hr

theorem value_settles (d : Nat) : Settles (TooNested d) (value d) := by
  induction d with
  | zero =>
    intro v b w rest hb hw hr
    rcases @next_read tooDeep tooDeep v b w rest hb hw hr with
      ⟨-, h⟩ | ⟨vs, body, rfl, -, h⟩ | ⟨ms, body, rfl, -, h⟩
    · exact .inl h
    · exact .inr ⟨_, ⟨rfl, Nat.succ_pos _⟩, h⟩
    · exact .inr ⟨_, ⟨rfl, Nat.succ_pos _⟩, h⟩
  | succ d ih =>
    intro v b w rest hb hw hr
    simp only [value]
    rcases next_read hb hw hr with ⟨-, h⟩ | ⟨vs, body, rfl, hbody, h⟩ | ⟨ms, body, rfl, hbody, h⟩
    · exact .inl h
    · rw [h]
      exact ((list_settles ih rest hbody).mono fun f => item_nested).bind .ok
    · rw [h]
      exact ((object_settles (afterColon_settles ih) rest hbody).mono fun f => breaks_nested).bind .ok

/-! ## The outermost node -/

def Mismatched (f : Fault) : Prop :=
  ∃ m, f.cause = .mismatch m

theorem refuse_mismatched {α : Type} {s : Shape} {v : Value} {b w rest : List Char} (hb : Blanks b)
    (hw : v.Spells w)
    (hr : Boundary rest) : ∃ f, Mismatched f ∧ refuse (α := α) s (b ++ (w ++ rest)) = .error f := by
  obtain ⟨c, t, rfl, hc, -, hs⟩ := spells_cons hw
  have hskip : skipBlanks (b ++ (c :: t ++ rest)) = c :: (t ++ rest) := skipBlanks_lead hb hc _
  simp only [refuse, hskip]
  split
  · exact ⟨_, ⟨_, rfl⟩, rfl⟩
  split
  · exact ⟨_, ⟨_, rfl⟩, rfl⟩
  · rename_i hlist hobject
    have hn : v.nesting = 0 := by
      cases v with
      | arr vs =>
        obtain ⟨body, -, e⟩ := hw
        exact absurd (List.cons.inj e).1 hlist
      | obj ms =>
        obtain ⟨body, -, e⟩ := hw
        exact absurd (List.cons.inj e).1 hobject
      | _ => rfl
    have hread : scalar (c :: (t ++ rest)) = .ok (v, rest) := scalar_read hw hn hr
    exact ⟨_, ⟨_, rfl⟩, by simp only [hread, bind, Except.bind]; rfl⟩

theorem spells_quote {v : Value} {t : List Char} (h : v.Spells ('"' :: t)) : ∃ s, v = .str s := by
  cases v with
  | null => cases h
  | bool b => cases b <;> cases h
  | num n =>
    obtain ⟨x, -, e⟩ := h
    obtain ⟨c, u, hc, hb⟩ := body_cons x
    unfold Numeral.text at e
    split at e
    · cases e
    · rw [hb] at e
      rw [← (List.cons.inj e).1] at hc
      cases hc
  | str s => exact ⟨s, rfl⟩
  | arr vs =>
    obtain ⟨body, -, e⟩ := h
    cases e
  | obj ms =>
    obtain ⟨body, -, e⟩ := h
    cases e

theorem tag_settles : Settles (fun v f => Mismatched f ∧ ∀ s, v ≠ .str s) tag := by
  intro v b w rest hb hw hr
  by_cases hv : ∃ s, v = .str s
  · obtain ⟨s, rfl⟩ := hv
    exact .inl (tag_read hb hw rest)
  · right
    obtain ⟨c, t, rfl, hc, -⟩ := spells_cons hw
    have hskip : skipBlanks (b ++ (c :: t ++ rest)) = c :: (t ++ rest) := skipBlanks_lead hb hc _
    have hq : c ≠ '"' := by
      rintro rfl
      exact hv (spells_quote hw)
    obtain ⟨f, hf, he⟩ := refuse_mismatched (α := Value) (s := .kind) blanks_nil hw hr
    refine ⟨f, ⟨hf, fun s hs => hv ⟨s, hs⟩⟩, ?_⟩
    simp only [tag, hskip]
    split
    · rename_i e
      exact absurd (List.cons.inj e).1 hq
    · exact he

theorem rootMember_settles (d : Nat) :
    MembersSettle (fun before k v f => TooNested d v f ∨ (Mismatched f ∧ ¬ RootMember before k v))
      (rootMember d) := by
  intro before key v b₁ b₂ w rest hb₁ hb₂ hw hr
  simp only [rootMember]
  split
  · rename_i hkey
    split
    · rename_i hold
      refine .inr ⟨_, .inr ⟨?_, fun h => (h hkey).1 hold⟩, rfl⟩
      unfold secondTag
      split <;> exact ⟨_, rfl⟩
    · rw [afterColon_read hb₁]
      refine (tag_settles hb₂ hw hr).mono fun f hf => .inr ⟨hf.1, fun h => ?_⟩
      obtain ⟨-, s, rfl⟩ := h hkey
      exact hf.2 s rfl
  · rw [afterColon_read hb₁]
    exact (value_settles d hb₂ hw hr).mono fun f => .inl

theorem breaks_root {d : Nat} {f : Fault} {before : List String} {ms : List (String × Value)}
    (h : Breaks (fun before k v f => TooNested d v f ∨ (Mismatched f ∧ ¬ RootMember before k v)) before ms f) :
    TooNested (d + 1) (.obj ms) f ∨ (Mismatched f ∧ ¬ Chain RootMember before ms) := by
  induction ms generalizing before with
  | nil => exact h.elim
  | cons m ms ih =>
    simp only [TooNested, nesting, nestingMembers, Chain] at ih ⊢
    rcases h with (⟨hf, hn⟩ | ⟨hf, hn⟩) | h
    · exact .inl ⟨hf, by omega⟩
    · exact .inr ⟨hf, fun h => hn h.1⟩
    · rcases ih h with ⟨hf, hn⟩ | ⟨hf, hn⟩
      · exact .inl ⟨hf, by omega⟩
      · exact .inr ⟨hf, fun h => hn h.2⟩

/-- The outermost node is read unless it nests too deeply or has no proper tag. -/
theorem root_settles (d : Nat) :
    Settles (fun v f => TooNested (d + 1) v f ∨ (Mismatched f ∧ ¬ v.Tagged)) (root d) := by
  intro v b w rest hb hw hr
  cases v with
  | arr vs =>
    obtain ⟨body, hbody, rfl⟩ := hw
    simp only [root, List.cons_append, skipBlanks_lead hb (show isBlank '[' = false by decide), rootList]
    cases vs with
    | nil =>
      obtain ⟨c, hc, rfl⟩ := hbody
      simp only [List.append_assoc, List.cons_append, skipBlanks_lead hc (show isBlank ']' = false by decide)]
      exact .inr ⟨_, .inr ⟨⟨_, rfl⟩, by simp [Value.Tagged]⟩, rfl⟩
    | cons t vs =>
      obtain ⟨lead, x, more, hlead, hx, hm, rfl⟩ := hbody
      have hl : vs.length < (more ++ rest).length := by
        have := length_lt_of_items hm
        rw [List.length_append]
        omega
      have htag := tag_settles blanks_nil hx (boundary_items hm rest)
      have hmore := moreItems_settles (value_settles d) rest hm hl
      obtain ⟨c, t, rfl, hc, hne, -⟩ := spells_cons hx
      simp only [List.nil_append, List.cons_append] at htag
      simp only [List.append_assoc, List.cons_append, skipBlanks_lead hlead hc]
      split
      · rename_i e
        cases e
      · rename_i e
        exact absurd (List.cons.inj e).1 hne
      · refine (htag.mono fun f hf => .inr ⟨hf.1, ?_⟩).bind ((hmore.mono fun f hf => .inl ?_).bind .ok)
        · rintro ⟨s, _, e⟩
          exact hf.2 s (List.cons.inj e).1
        · obtain ⟨hf, hn⟩ := item_nested hf
          simp only [TooNested, nesting, nestingItems] at hn ⊢
          exact ⟨hf, by omega⟩
  | obj ms =>
    obtain ⟨body, hbody, rfl⟩ := hw
    simp only [root, List.cons_append, skipBlanks_lead hb (show isBlank '{' = false by decide), rootObject]
    have hobject := object_settles (rootMember_settles d) rest hbody
    have hchain : (Value.obj ms).Tagged → Chain RootMember [] ms := by
      rintro ⟨s, hs⟩
      exact chain_root_iff.mpr (.inr ⟨by simp, s, hs⟩)
    refine Ends.bind (hobject.mono fun f hf => (breaks_root hf).imp_right fun h =>
      ⟨h.1, fun ht => h.2 (hchain ht)⟩) ?_
    simp only
    split
    · exact .ok
    · rename_i hany
      refine .inr ⟨_, .inr ⟨⟨_, rfl⟩, ?_⟩, rfl⟩
      rintro ⟨s, hs⟩
      refine hany (any_type_iff.mpr ?_)
      rw [hs]
      simp
  | _ =>
    obtain ⟨f, hf, he⟩ := refuse_mismatched (α := Value) (s := .node) blanks_nil hw hr
    obtain ⟨c, t, rfl, hc, -, hs⟩ := spells_cons hw
    have hskip : skipBlanks (b ++ (c :: t ++ rest)) = c :: (t ++ rest) := skipBlanks_lead hb hc _
    refine .inr ⟨f, .inr ⟨hf, fun h => h⟩, ?_⟩
    simp only [root, hskip]
    split
    · rename_i e
      exact absurd (List.cons.inj e).1 (hs rfl).1
    · rename_i e
      exact absurd (List.cons.inj e).1 (hs rfl).2
    · exact he

end Source

/-! ## Texts -/

theorem isSpace_of_isDigit {c : Char} (hc : c.isDigit = true) : isSpace c = false := by
  have h0 : '0'.toNat = 48 := rfl
  have hv := Source.digitValue_lt hc
  simp only [Char.isDigit, Bool.and_eq_true, decide_eq_true_eq, ge_iff_le, UInt32.le_iff_toNat_le] at hc
  have h : 48 ≤ c.toNat ∧ c.toNat < 58 := ⟨hc.1, by unfold Source.digitValue at hv; omega⟩
  simp only [isSpace, Bool.or_eq_false_iff, Bool.and_eq_false_iff, decide_eq_false_iff_not]
  omega

theorem Json.Value.Spells.exists_visible {v : Value} {w : List Char} (h : v.Spells w) :
    ∃ c ∈ w, isSpace c = false := by
  cases v with
  | null =>
    simp only [Spells] at h
    exact ⟨'n', by simp [h], by decide⟩
  | bool b =>
    cases b with
    | true =>
      simp only [Spells] at h
      exact ⟨'t', by simp [h], by decide⟩
    | false =>
      simp only [Spells] at h
      exact ⟨'f', by simp [h], by decide⟩
  | num n =>
    obtain ⟨x, -, rfl⟩ := h
    obtain ⟨c, t, hc, hb⟩ := Source.body_cons x
    refine ⟨c, ?_, isSpace_of_isDigit hc⟩
    unfold Numeral.text
    split <;> simp [hb]
  | str s =>
    simp only [Spells] at h
    obtain ⟨x, -, rfl⟩ := h
    exact ⟨'"', by simp, by decide⟩
  | arr vs =>
    obtain ⟨body, -, rfl⟩ := h
    exact ⟨'[', by simp, by decide⟩
  | obj ms =>
    obtain ⟨body, -, rfl⟩ := h
    exact ⟨'{', by simp, by decide⟩

namespace Node

variable {source : String} {v : Value}

/-- What becomes of a text that holds a value is decided by the value. -/
theorem parse_document (h : v.Document source.toList) :
    (v.nesting < maxNesting ∧ parse source = (ofValue v).mapError fun m => .mismatch m none) ∨
      (maxNesting ≤ v.nesting ∧ ∃ place, parse source = .error (.tooDeep place)) ∨
      (¬ v.Tagged ∧ ∃ m place, parse source = .error (.mismatch m place)) := by
  obtain ⟨b₁, w, b₂, hb₁, hw, hb₂, ht⟩ := h
  have hend : Source.Boundary (b₂ ++ []) := Source.boundary_blanks hb₂ fun c hc => by cases hc
  rw [List.append_nil] at hend
  have htrim : trimSpace source.toList ≠ [] := by
    obtain ⟨c, hc, hs⟩ := hw.exists_visible
    exact trimSpace_ne_nil (by simp [ht, hc]) hs
  have hfin : Source.finish b₂ = .ok () := Source.finish_eq_ok.mpr hb₂
  have hroot := Source.root_settles (maxNesting - 2) hb₁ hw hend
  rw [← ht] at hroot
  rcases hroot with hroot | ⟨f, ⟨hf, hn⟩ | ⟨⟨m, hf⟩, htag⟩, hroot⟩
  · left
    obtain ⟨-, _, _, -, -, hn, -⟩ := Source.root_spells hroot
    refine ⟨by simp only [maxNesting] at hn ⊢; omega, ?_⟩
    simp only [parse, if_neg htrim, hroot]
    cases ofValue v with
    | error m => rfl
    | ok n => simp only [hfin]; rfl
  · refine .inr (.inl ⟨by simp only [maxNesting] at hn ⊢; omega, ?_⟩)
    exact ⟨.leaving source.toList f.left, by simp only [parse, if_neg htrim, hroot, ParseError.ofFault, hf]⟩
  · refine .inr (.inr ⟨htag, ?_⟩)
    exact ⟨m, some (.leaving source.toList f.left),
      by simp only [parse, if_neg htrim, hroot, ParseError.ofFault, hf]⟩

/-- Only JSON is accepted, and JSON that does not nest too deeply is refused for nothing but its shape. The numerals
are those that are converted; the exact values of these are known up to a small gap at the end of the range. -/
theorem parse_refuses_shape_only (source : String) :
    (∀ n, parse source = .ok n →
      Grammar.Document 127 source.toList ∧ Grammar.DocumentOf Numeral.NotBeyond 127 source.toList) ∧
      (Grammar.Document 127 source.toList ∨ Grammar.DocumentOf Numeral.Within 127 source.toList →
        (∃ n, parse source = .ok n) ∨ ∃ m place, parse source = .error (.mismatch m place)) := by
  constructor
  · intro n h
    obtain ⟨v, hdoc, hn, -, -⟩ := parse_eq_ok_iff.mp h
    have hjson := Grammar.document_iff.mpr ⟨v, hdoc, Nat.le_of_lt_succ hn⟩
    exact ⟨hjson, hjson.mono fun _ => Numeral.Converts.notBeyond⟩
  · intro h
    have hjson : Grammar.Document 127 source.toList :=
      h.elim id fun h => h.mono fun _ => Numeral.Within.converts
    obtain ⟨v, hdoc, hn⟩ := Grammar.document_iff.mp hjson
    rcases parse_document hdoc with ⟨-, h⟩ | ⟨hdeep, -⟩ | ⟨-, h⟩
    · rw [h]
      cases ofValue v with
      | error m => exact .inr ⟨m, none, rfl⟩
      | ok n => exact .inl ⟨n, rfl⟩
    · simp only [maxNesting] at hdeep
      omega
    · exact .inr h

theorem digits_nearLargest : Digits ('1' :: "7976931348623158".toList) :=
  ⟨by simp, by simp⟩

/-- The numeral `1.7976931348623158e308`, which lies between the largest double and half a step above it. -/
def nearLargest : Numeral :=
  have hpower : Digits ['3', '0', '8'] := ⟨by simp, by simp⟩
  .pointed false digits_nearLargest (.lower none hpower)

theorem finite_nearLargest : nearLargest.Finite := by
  have hvalue : nearLargest.magnitude = Source.appendDigits (Source.digitValue '1') "7976931348623158".toList *
      10 ^ (nearLargest.power - "7976931348623158".toList.length) :=
    Numeral.magnitude_pointed digits_nearLargest _ _
  have hdigits : Source.appendDigits (Source.digitValue '1') "7976931348623158".toList = 17976931348623158 := by
    decide
  have hpower : nearLargest.power - "7976931348623158".toList.length = (292 : Nat) := by decide
  have hlt : 17976931348623158 * 10 ^ 292 + 2 ^ 970 < 2 ^ 1024 := by decide +kernel
  rw [Numeral.Finite, hvalue, hdigits, hpower, zpow_natCast, lt_sub_iff_add_lt]
  exact_mod_cast hlt

/-- To be finite is not enough: the conversion may leave the range of doubles though the numeral is in it. -/
theorem finite_number_refused :
    ¬ ∀ source : String, (∀ n, parse source = .ok n → Grammar.DocumentOf Numeral.Finite 127 source.toList) ∧
      (Grammar.DocumentOf Numeral.Finite 127 source.toList →
        (∃ n, parse source = .ok n) ∨ ∃ m place, parse source = .error (.mismatch m place)) := by
  intro h
  have hnumber : Grammar.Value Numeral.Finite 126 "1.7976931348623158e308".toList :=
    Grammar.Scalar.value (.inr (.inr (.inr (.inl ⟨nearLargest, finite_nearLargest, by decide⟩)))) 126
  have hjson : Grammar.DocumentOf Numeral.Finite 127
      (nodeText "NumberLiteral" "value" "1.7976931348623158e308").toList :=
    documentOf_nodeText (by decide) (by decide) hnumber
  have hread : parse (nodeText "NumberLiteral" "value" "1.7976931348623158e308") =
      .error (.grammar .outOfRange ⟨1, 54⟩) := by
    decide +kernel
  rcases (h _).2 hjson with ⟨n, hn⟩ | ⟨m, place, hm⟩
  · rw [hread] at hn
    cases hn
  · rw [hread] at hm
    cases hm

end Node

end SharpTree
