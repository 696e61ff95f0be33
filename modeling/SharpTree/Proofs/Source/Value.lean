import SharpTree.Proofs.Source.Number
import SharpTree.Source.Value

/-!
# Values are read from their spellings

The reader of values takes a spelling off a text and gives the value that it
spells (`value_spells`), and it reads every spelling of every value that does
not nest too deeply (`value_read`). So a text holds at most one value
(`document_unique`). The loops over items and members are treated for any reader
of their parts, since the outermost object reads its tag in a way of its own.
-/

namespace SharpTree.Source

open Json
open Json.Value (Spells SpellsItems SpellsMembers nesting nestingItems nestingMembers)

/-! ## Values without parts -/

theorem word_eq_ok {u : Unit} {rest : List Char} : ∀ {cs text : List Char},
    word cs text = .ok (u, rest) ↔ text = cs ++ rest
  | [], text => by simp [word]
  | c :: cs, [] => by simp [word]
  | c :: cs, x :: text => by
    simp only [word]
    split
    · rename_i hx
      subst hx
      rw [word_eq_ok]
      simp
    · rename_i hx
      simp [hx]

theorem scalar_spells {text rest : List Char} {v : Value} (h : scalar text = .ok (v, rest)) :
    ∃ w, v.Spells w ∧ v.nesting = 0 ∧ text = w ++ rest := by
  cases text with
  | nil => cases h
  | cons c after =>
    simp only [scalar] at h
    split at h
    · rename_i hc
      obtain ⟨⟨_, r⟩, h₁, h₂⟩ := bind_eq_ok.mp h
      cases h₂
      exact ⟨_, rfl, rfl, by rw [hc, word_eq_ok.mp h₁]; rfl⟩
    split at h
    · rename_i hc
      obtain ⟨⟨_, r⟩, h₁, h₂⟩ := bind_eq_ok.mp h
      cases h₂
      exact ⟨_, rfl, rfl, by rw [hc, word_eq_ok.mp h₁]; rfl⟩
    split at h
    · rename_i hc
      obtain ⟨⟨_, r⟩, h₁, h₂⟩ := bind_eq_ok.mp h
      cases h₂
      exact ⟨_, rfl, rfl, by rw [hc, word_eq_ok.mp h₁]; rfl⟩
    split at h
    · rename_i hc
      obtain ⟨⟨s, r⟩, h₁, h₂⟩ := bind_eq_ok.mp h
      cases h₂
      obtain ⟨w, hw, rfl⟩ := string_spells h₁
      exact ⟨_, hw, rfl, by rw [hc]; rfl⟩
    split at h
    · rename_i hc
      obtain ⟨⟨n, r⟩, h₁, h₂⟩ := bind_eq_ok.mp h
      cases h₂
      obtain ⟨x, hneg, hx, rfl⟩ := number_spells h₁
      exact ⟨_, ⟨x, hx, rfl⟩, rfl, by simp [Numeral.text, hneg, hc]⟩
    split at h
    · rename_i hc
      obtain ⟨⟨n, r⟩, h₁, h₂⟩ := bind_eq_ok.mp h
      cases h₂
      obtain ⟨x, hneg, hx, ht⟩ := number_spells h₁
      exact ⟨_, ⟨x, hx, rfl⟩, rfl, by simp [Numeral.text, hneg, ht]⟩
    · cases h

theorem ne_of_isDigit {c d : Char} (hc : c.isDigit = true) (hd : d.isDigit = false) : c ≠ d := by
  rintro rfl
  rw [hc] at hd
  cases hd

theorem isBlank_of_isDigit {c : Char} (hc : c.isDigit = true) : isBlank c = false := by
  have hne : ∀ d, d.isDigit = false → c ≠ d := fun _ => ne_of_isDigit hc
  simp [isBlank, hne ' ' rfl, hne '\n' rfl, hne '\t' rfl, hne '\r' rfl]

theorem body_cons (x : Numeral) : ∃ c t, c.isDigit = true ∧ x.body = c :: t := by
  obtain ⟨c, w, hw⟩ := List.exists_cons_of_ne_nil x.whole_run.1
  exact ⟨c, _, x.whole_run.2 c (by simp [hw]), by rw [Numeral.body, hw, List.cons_append]⟩

theorem scalar_read {v : Value} {w rest : List Char} (h : v.Spells w) (hn : v.nesting = 0) (hr : Boundary rest) :
    scalar (w ++ rest) = .ok (v, rest) := by
  cases v with
  | null =>
    simp only [Spells] at h
    subst h
    rfl
  | bool b =>
    cases b
    all_goals
      simp only [Spells] at h
      subst h
      rfl
  | str s =>
    simp only [Spells] at h
    have hs := h
    obtain ⟨x, -, rfl⟩ := h
    have hread := string_read hs rest
    simp only [List.cons_append, scalar, hread, bind, Except.bind]
    rfl
  | num n =>
    obtain ⟨x, hx, rfl⟩ := h
    obtain ⟨c, t, hc, hb⟩ := body_cons x
    have hread := number_read hx hr
    cases hneg : x.negative with
    | true =>
      rw [hneg] at hread
      simp [Numeral.text, hneg, scalar, hread, bind, Except.bind]
    | false =>
      have hne : ∀ d, d.isDigit = false → c ≠ d := fun _ => ne_of_isDigit hc
      rw [hneg, hb, List.cons_append] at hread
      simp only [Numeral.text, hneg, hb, scalar, List.cons_append, Bool.false_eq_true, if_false, hne 'n' rfl,
        hne 't' rfl, hne 'f' rfl, hne '"' rfl, hne '-' rfl, hc, if_true, hread, bind, Except.bind]
  | arr vs => simp [nesting] at hn
  | obj ms => simp [nesting] at hn

/-! ## First characters -/

theorem spells_cons {v : Value} {w : List Char} (h : v.Spells w) :
    ∃ c t, w = c :: t ∧ isBlank c = false ∧ c ≠ ']' ∧ (v.nesting = 0 → c ≠ '[' ∧ c ≠ '{') := by
  cases v with
  | null => simp only [Spells] at h; exact ⟨'n', _, h, by decide⟩
  | bool b =>
    cases b
    all_goals
      simp only [Spells] at h
      exact ⟨_, _, h, by decide⟩
  | str s =>
    simp only [Spells] at h
    obtain ⟨x, -, rfl⟩ := h
    exact ⟨'"', _, rfl, by decide, by decide, fun _ => by decide⟩
  | num n =>
    obtain ⟨x, -, rfl⟩ := h
    unfold Numeral.text
    split
    · exact ⟨'-', _, rfl, by decide, by decide, fun _ => by decide⟩
    · obtain ⟨c, t, hc, hb⟩ := body_cons x
      have hne : ∀ d, d.isDigit = false → c ≠ d := fun _ => ne_of_isDigit hc
      exact ⟨c, t, hb, isBlank_of_isDigit hc, hne ']' rfl, fun _ => ⟨hne '[' rfl, hne '{' rfl⟩⟩
  | arr vs =>
    simp only [Spells] at h
    obtain ⟨body, -, rfl⟩ := h
    exact ⟨'[', body, rfl, by decide, by decide, fun hn => by simp [nesting] at hn⟩
  | obj ms =>
    simp only [Spells] at h
    obtain ⟨body, -, rfl⟩ := h
    exact ⟨'{', body, rfl, by decide, by decide, fun hn => by simp [nesting] at hn⟩

theorem boundary_blank {c : Char} (hc : isBlank c = true) (t : List Char) : Boundary (c :: t) := by
  intro d hd
  cases hd
  simp only [isBlank, Bool.or_eq_true, decide_eq_true_eq] at hc
  rcases hc with ((rfl | rfl) | rfl) | rfl <;> decide

theorem boundary_blanks {b : List Char} (hb : Blanks b) {t : List Char} (ht : Boundary t) : Boundary (b ++ t) := by
  cases b with
  | nil => exact ht
  | cons c b => exact boundary_blank (hb c (by simp)) _

theorem boundary_cons {c : Char} (hc : c.isDigit = false ∧ c ≠ '.' ∧ c ≠ 'e' ∧ c ≠ 'E') (t : List Char) :
    Boundary (c :: t) := by
  intro d hd
  cases hd
  exact hc

theorem boundary_items {vs : List Value} {w : List Char} (h : SpellsItems false vs w) (rest : List Char) :
    Boundary (w ++ rest) := by
  cases vs with
  | nil =>
    obtain ⟨b, hb, rfl⟩ := h
    rw [List.append_assoc]
    exact boundary_blanks hb (boundary_cons (by decide) _)
  | cons v vs =>
    obtain ⟨lead, x, more, ⟨b₁, b₂, hb₁, -, rfl⟩, -, -, rfl⟩ := h
    rw [List.append_assoc, List.append_assoc]
    exact boundary_blanks hb₁ (boundary_cons (by decide) _)

theorem boundary_members {ms : List (String × Value)} {w : List Char} (h : SpellsMembers false ms w)
    (rest : List Char) : Boundary (w ++ rest) := by
  cases ms with
  | nil =>
    obtain ⟨b, hb, rfl⟩ := h
    rw [List.append_assoc]
    exact boundary_blanks hb (boundary_cons (by decide) _)
  | cons m ms =>
    obtain ⟨lead, key, c₁, c₂, x, more, ⟨b₁, b₂, hb₁, -, rfl⟩, -, -, -, -, -, rfl⟩ := h
    rw [List.append_assoc, List.append_assoc]
    exact boundary_blanks hb₁ (boundary_cons (by decide) _)

/-! ## Lists -/

/-- Whatever the reader accepts is a value of limited nesting, after blanks. -/
def ReadsOnly (d : Nat) (item : Reader Value) : Prop :=
  ∀ ⦃text rest : List Char⦄ ⦃v : Value⦄, item text = .ok (v, rest) →
    ∃ b w, Blanks b ∧ v.Spells w ∧ v.nesting ≤ d ∧ text = b ++ (w ++ rest)

/-- The reader accepts every value of limited nesting, after any blanks. -/
def ReadsAll (d : Nat) (item : Reader Value) : Prop :=
  ∀ ⦃v : Value⦄ ⦃b w rest : List Char⦄, Blanks b → v.Spells w → v.nesting ≤ d → Boundary rest →
    item (b ++ (w ++ rest)) = .ok (v, rest)

section Lists

variable {d : Nat} {item : Reader Value}

theorem moreItems_spells (hi : ReadsOnly d item) :
    ∀ {bound text rest : List Char} {vs : List Value}, moreItems item bound text = .ok (vs, rest) →
      ∃ w, SpellsItems false vs w ∧ nestingItems vs ≤ d ∧ text = w ++ rest
  | [], _, _, _, h => by cases h
  | _ :: bound, text, rest, vs, h => by
    obtain ⟨b₁, hb₁, ht⟩ := exists_blanks text
    simp only [moreItems] at h
    split at h
    · cases h
    · rename_i c after hs
      rw [hs] at ht
      subst ht
      split at h
      · rename_i hc
        cases h
        exact ⟨b₁ ++ [c], ⟨b₁, hb₁, by rw [hc]⟩, Nat.zero_le _, by simp⟩
      split at h
      · rename_i hc
        obtain ⟨b₂, hb₂, ht⟩ := exists_blanks after
        split at h
        · cases h
        · rename_i c' after' hs'
          rw [hs'] at ht
          split at h
          · cases h
          · obtain ⟨⟨v, r⟩, h₁, h₁'⟩ := bind_eq_ok.mp h
            obtain ⟨⟨vs', r'⟩, h₂, h₂'⟩ := bind_eq_ok.mp h₁'
            cases h₂'
            obtain ⟨b₃, x, hb₃, hx, hn, hv⟩ := hi h₁
            obtain ⟨more, hm, hns, rfl⟩ := moreItems_spells hi h₂
            rw [hv] at ht
            subst ht hc
            refine ⟨_, ⟨b₁ ++ ',' :: (b₂ ++ b₃), x, more, ?_, hx, hm, rfl⟩, Nat.max_le.mpr ⟨hn, hns⟩, by simp⟩
            exact ⟨b₁, b₂ ++ b₃, hb₁, blanks_append.mpr ⟨hb₂, hb₃⟩, rfl⟩
      · cases h

theorem list_spells (hi : ReadsOnly d item) {text rest : List Char} {vs : List Value}
    (h : list item text = .ok (vs, rest)) :
    ∃ w, SpellsItems true vs w ∧ nestingItems vs ≤ d ∧ text = w ++ rest := by
  obtain ⟨b₁, hb₁, ht⟩ := exists_blanks text
  simp only [list] at h
  split at h
  · cases h
  · rename_i c after hs
    rw [hs] at ht
    split at h
    · rename_i hc
      cases h
      exact ⟨b₁ ++ [c], ⟨b₁, hb₁, by rw [hc]⟩, Nat.zero_le _, by simp [ht]⟩
    · obtain ⟨⟨v, r⟩, h₁, h₁'⟩ := bind_eq_ok.mp h
      obtain ⟨⟨vs', r'⟩, h₂, h₂'⟩ := bind_eq_ok.mp h₁'
      cases h₂'
      obtain ⟨b₂, x, hb₂, hx, hn, hv⟩ := hi h₁
      obtain ⟨more, hm, hns, rfl⟩ := moreItems_spells hi h₂
      rw [hv] at ht
      subst ht
      refine ⟨_, ⟨b₁ ++ b₂, x, more, ?_, hx, hm, rfl⟩, Nat.max_le.mpr ⟨hn, hns⟩, by simp⟩
      exact blanks_append.mpr ⟨hb₁, hb₂⟩

theorem length_lt_of_items : ∀ {first : Bool} {vs : List Value} {w : List Char}, SpellsItems first vs w →
    vs.length < w.length
  | _, [], w, h => by
    obtain ⟨b, -, rfl⟩ := h
    simp
  | first, v :: vs, w, h => by
    obtain ⟨lead, x, more, -, hx, hm, rfl⟩ := h
    obtain ⟨c, t, rfl, -⟩ := spells_cons hx
    have := length_lt_of_items hm
    simp only [List.length_append, List.length_cons]
    omega

theorem moreItems_read (hi : ReadsAll d item) (rest : List Char) :
    ∀ {bound w : List Char} {vs : List Value}, SpellsItems false vs w → nestingItems vs ≤ d →
      vs.length < bound.length → moreItems item bound (w ++ rest) = .ok (vs, rest)
  | [], _, _, _, _, hl => by cases hl
  | _ :: bound, w, [], h, _, _ => by
    obtain ⟨b, hb, rfl⟩ := h
    rw [List.append_assoc]
    simp only [moreItems, List.cons_append, skipBlanks_lead hb (show isBlank ']' = false by decide)]
    rfl
  | _ :: bound, w, v :: vs, h, hn, hl => by
    obtain ⟨lead, x, more, ⟨b₁, b₂, hb₁, hb₂, rfl⟩, hx, hm, rfl⟩ := h
    obtain ⟨hn₁, hn₂⟩ := Nat.max_le.mp hn
    obtain ⟨c, t, rfl, hc, hne, -⟩ := spells_cons hx
    have h₁ : item (c :: (t ++ (more ++ rest))) = .ok (v, more ++ rest) :=
      hi blanks_nil hx hn₁ (boundary_items hm rest)
    have h₂ := moreItems_read hi rest hm hn₂ (Nat.lt_of_succ_lt_succ hl)
    simp only [List.append_assoc, List.cons_append, moreItems,
      skipBlanks_lead hb₁ (show isBlank ',' = false by decide), skipBlanks_lead hb₂ hc, hne, if_false, if_true,
      show (',' = ']') = False by decide, h₁, h₂, bind, Except.bind]

theorem list_read (hi : ReadsAll d item) {w : List Char} {vs : List Value} (h : SpellsItems true vs w)
    (hn : nestingItems vs ≤ d) (rest : List Char) : list item (w ++ rest) = .ok (vs, rest) := by
  cases vs with
  | nil =>
    obtain ⟨b, hb, rfl⟩ := h
    rw [List.append_assoc]
    simp only [list, List.cons_append, skipBlanks_lead hb (show isBlank ']' = false by decide)]
    rfl
  | cons v vs =>
    obtain ⟨lead, x, more, hlead, hx, hm, rfl⟩ := h
    obtain ⟨hn₁, hn₂⟩ := Nat.max_le.mp hn
    obtain ⟨c, t, rfl, hc, hne, -⟩ := spells_cons hx
    have h₁ : item (c :: (t ++ (more ++ rest))) = .ok (v, more ++ rest) :=
      hi blanks_nil hx hn₁ (boundary_items hm rest)
    have hl : vs.length < (more ++ rest).length := by
      have := length_lt_of_items hm
      rw [List.length_append]
      omega
    have h₂ := moreItems_read hi rest hm hn₂ hl
    simp only [List.append_assoc, List.cons_append, list, skipBlanks_lead hlead hc, hne, if_false, h₁, h₂, bind,
      Except.bind]

end Lists

/-! ## Objects -/

/-- A condition on each member of an object in view of the keys before it. -/
def Chain (Q : List String → String → Value → Prop) : List String → List (String × Value) → Prop
  | _, [] => True
  | before, (k, v) :: ms => Q before k v ∧ Chain Q (k :: before) ms

def MembersOnly (d : Nat) (Q : List String → String → Value → Prop)
    (member : List String → String → Reader Value) : Prop :=
  ∀ ⦃before : List String⦄ ⦃key : String⦄ ⦃text rest : List Char⦄ ⦃v : Value⦄,
    member before key text = .ok (v, rest) → Q before key v ∧
      ∃ b₁ b₂ w, Blanks b₁ ∧ Blanks b₂ ∧ v.Spells w ∧ v.nesting ≤ d ∧ text = b₁ ++ ':' :: (b₂ ++ (w ++ rest))

def MembersAll (d : Nat) (Q : List String → String → Value → Prop)
    (member : List String → String → Reader Value) : Prop :=
  ∀ ⦃before : List String⦄ ⦃key : String⦄ ⦃v : Value⦄ ⦃b₁ b₂ w rest : List Char⦄, Q before key v → Blanks b₁ →
    Blanks b₂ → v.Spells w → v.nesting ≤ d → Boundary rest →
    member before key (b₁ ++ ':' :: (b₂ ++ (w ++ rest))) = .ok (v, rest)

section Objects

variable {d : Nat} {Q : List String → String → Value → Prop} {member : List String → String → Reader Value}

theorem moreMembers_spells (hm : MembersOnly d Q member) :
    ∀ {bound text rest : List Char} {before : List String} {ms : List (String × Value)},
      moreMembers member bound before text = .ok (ms, rest) →
      Chain Q before ms ∧ ∃ w, SpellsMembers false ms w ∧ nestingMembers ms ≤ d ∧ text = w ++ rest
  | [], _, _, _, _, h => by cases h
  | _ :: bound, text, rest, before, ms, h => by
    obtain ⟨b₁, hb₁, ht⟩ := exists_blanks text
    simp only [moreMembers] at h
    split at h
    · cases h
    · rename_i c after hs
      rw [hs] at ht
      subst ht
      split at h
      · rename_i hc
        cases h
        exact ⟨trivial, b₁ ++ [c], ⟨b₁, hb₁, by rw [hc]⟩, Nat.zero_le _, by simp⟩
      split at h
      · rename_i hc
        obtain ⟨b₂, hb₂, ht⟩ := exists_blanks after
        split at h
        · cases h
        · rename_i c' after' hs'
          rw [hs'] at ht
          split at h
          · rename_i hq
            obtain ⟨⟨key, r₁⟩, h₁, h₁'⟩ := bind_eq_ok.mp h
            obtain ⟨⟨v, r₂⟩, h₂, h₂'⟩ := bind_eq_ok.mp h₁'
            obtain ⟨⟨ms', r₃⟩, h₃, h₃'⟩ := bind_eq_ok.mp h₂'
            cases h₃'
            obtain ⟨k, hk, rfl⟩ := string_spells h₁
            obtain ⟨hQ, b₃, b₄, x, hb₃, hb₄, hx, hn, rfl⟩ := hm h₂
            obtain ⟨hQs, more, hmore, hns, rfl⟩ := moreMembers_spells hm h₃
            subst ht hc hq
            refine ⟨⟨hQ, hQs⟩, _,
              ⟨b₁ ++ ',' :: b₂, '"' :: k, b₃, b₄, x, more, ⟨b₁, b₂, hb₁, hb₂, rfl⟩, hk, hb₃, hb₄,
              hx, hmore, rfl⟩, Nat.max_le.mpr ⟨hn, hns⟩, by simp⟩
          split at h
          · cases h
          · cases h
      · cases h

theorem object_spells (hm : MembersOnly d Q member) {text rest : List Char} {ms : List (String × Value)}
    (h : object member text = .ok (ms, rest)) :
    Chain Q [] ms ∧ ∃ w, SpellsMembers true ms w ∧ nestingMembers ms ≤ d ∧ text = w ++ rest := by
  obtain ⟨b₁, hb₁, ht⟩ := exists_blanks text
  simp only [object] at h
  split at h
  · cases h
  · rename_i c after hs
    rw [hs] at ht
    split at h
    · rename_i hc
      cases h
      exact ⟨trivial, b₁ ++ [c], ⟨b₁, hb₁, by rw [hc]⟩, Nat.zero_le _, by simp [ht]⟩
    split at h
    · rename_i hq
      obtain ⟨⟨key, r₁⟩, h₁, h₁'⟩ := bind_eq_ok.mp h
      obtain ⟨⟨v, r₂⟩, h₂, h₂'⟩ := bind_eq_ok.mp h₁'
      obtain ⟨⟨ms', r₃⟩, h₃, h₃'⟩ := bind_eq_ok.mp h₂'
      cases h₃'
      obtain ⟨k, hk, rfl⟩ := string_spells h₁
      obtain ⟨hQ, b₃, b₄, x, hb₃, hb₄, hx, hn, rfl⟩ := hm h₂
      obtain ⟨hQs, more, hmore, hns, rfl⟩ := moreMembers_spells hm h₃
      subst ht hq
      exact ⟨⟨hQ, hQs⟩, _, ⟨b₁, '"' :: k, b₃, b₄, x, more, hb₁, hk, hb₃, hb₄, hx, hmore, rfl⟩,
        Nat.max_le.mpr ⟨hn, hns⟩, by simp⟩
    · cases h

theorem length_lt_of_members : ∀ {first : Bool} {ms : List (String × Value)} {w : List Char},
    SpellsMembers first ms w → ms.length < w.length
  | _, [], w, h => by
    obtain ⟨b, -, rfl⟩ := h
    simp
  | first, m :: ms, w, h => by
    obtain ⟨lead, key, b₁, b₂, x, more, -, -, -, -, -, hm, rfl⟩ := h
    have := length_lt_of_members hm
    simp only [List.length_append, List.length_cons]
    omega

theorem moreMembers_read (hm : MembersAll d Q member) (rest : List Char) :
    ∀ {bound w : List Char} {before : List String} {ms : List (String × Value)}, Chain Q before ms →
      SpellsMembers false ms w → nestingMembers ms ≤ d → ms.length < bound.length →
      moreMembers member bound before (w ++ rest) = .ok (ms, rest)
  | [], _, _, _, _, _, _, hl => by cases hl
  | _ :: bound, w, before, [], _, h, _, _ => by
    obtain ⟨b, hb, rfl⟩ := h
    rw [List.append_assoc]
    simp only [moreMembers, List.cons_append, skipBlanks_lead hb (show isBlank '}' = false by decide)]
    rfl
  | _ :: bound, w, before, (k, v) :: ms, hQ, h, hn, hl => by
    obtain ⟨lead, key, b₃, b₄, x, more, ⟨b₁, b₂, hb₁, hb₂, rfl⟩, hk, hb₃, hb₄, hx, hmore, rfl⟩ := h
    obtain ⟨hn₁, hn₂⟩ := Nat.max_le.mp hn
    obtain ⟨y, hy, rfl⟩ := hk
    have h₁ := string_read ⟨y, hy, rfl⟩ (b₃ ++ ':' :: (b₄ ++ (x ++ (more ++ rest))))
    have h₂ := hm hQ.1 hb₃ hb₄ hx hn₁ (boundary_members hmore rest)
    have h₃ := moreMembers_read hm rest hQ.2 hmore hn₂ (Nat.lt_of_succ_lt_succ hl)
    simp only [List.append_assoc, List.cons_append, List.nil_append] at h₁
    simp only [List.append_assoc, List.cons_append, List.nil_append, moreMembers,
      skipBlanks_lead hb₁ (show isBlank ',' = false by decide),
      skipBlanks_lead hb₂ (show isBlank '"' = false by decide), if_false, if_true,
      show (',' = '}') = False by decide, h₁, h₂, h₃, bind, Except.bind]

theorem object_read (hm : MembersAll d Q member) {w : List Char} {ms : List (String × Value)} (hQ : Chain Q [] ms)
    (h : SpellsMembers true ms w) (hn : nestingMembers ms ≤ d) (rest : List Char) :
    object member (w ++ rest) = .ok (ms, rest) := by
  cases ms with
  | nil =>
    obtain ⟨b, hb, rfl⟩ := h
    rw [List.append_assoc]
    simp only [object, List.cons_append, skipBlanks_lead hb (show isBlank '}' = false by decide)]
    rfl
  | cons m ms =>
    obtain ⟨lead, key, b₃, b₄, x, more, hlead, hk, hb₃, hb₄, hx, hmore, rfl⟩ := h
    obtain ⟨hn₁, hn₂⟩ := Nat.max_le.mp hn
    obtain ⟨y, hy, rfl⟩ := hk
    have h₁ := string_read ⟨y, hy, rfl⟩ (b₃ ++ ':' :: (b₄ ++ (x ++ (more ++ rest))))
    have h₂ := hm hQ.1 hb₃ hb₄ hx hn₁ (boundary_members hmore rest)
    have hl : ms.length < (more ++ rest).length := by
      have := length_lt_of_members hmore
      rw [List.length_append]
      omega
    have h₃ := moreMembers_read hm rest hQ.2 hmore hn₂ hl
    simp only [List.append_assoc, List.cons_append, List.nil_append] at h₁
    simp only [List.append_assoc, List.cons_append, List.nil_append, object,
      skipBlanks_lead hlead (show isBlank '"' = false by decide), if_false, if_true,
      show ('"' = '}') = False by decide, h₁, h₂, h₃, bind, Except.bind]

end Objects

/-! ## All values -/

theorem colon_eq_ok {text rest : List Char} {u : Unit} :
    colon text = .ok (u, rest) ↔ ∃ b, Blanks b ∧ text = b ++ ':' :: rest := by
  constructor
  · intro h
    obtain ⟨b, hb, ht⟩ := exists_blanks text
    simp only [colon] at h
    split at h
    · cases h
    · rename_i c after hs
      rw [hs] at ht
      split at h
      · rename_i hc
        cases h
        exact ⟨b, hb, by rw [ht, hc]⟩
      · cases h
  · rintro ⟨b, hb, rfl⟩
    simp only [colon, skipBlanks_lead hb (show isBlank ':' = false by decide), if_true]

theorem afterColon_only {d : Nat} {item : Reader Value} (hi : ReadsOnly d item) :
    MembersOnly d (fun _ _ _ => True) (fun _ _ => afterColon item) := by
  intro before key text rest v h
  obtain ⟨⟨_, r⟩, h₁, h₂⟩ := bind_eq_ok.mp h
  obtain ⟨b₁, hb₁, rfl⟩ := colon_eq_ok.mp h₁
  obtain ⟨b₂, w, hb₂, hw, hn, rfl⟩ := hi h₂
  exact ⟨trivial, b₁, b₂, w, hb₁, hb₂, hw, hn, rfl⟩

theorem afterColon_read {item : Reader Value} {b : List Char} (hb : Blanks b) (text : List Char) :
    afterColon item (b ++ ':' :: text) = item text := by
  simp only [afterColon, colon, skipBlanks_lead hb (show isBlank ':' = false by decide), if_true, bind, Except.bind]

theorem afterColon_all {d : Nat} {item : Reader Value} (hi : ReadsAll d item) :
    MembersAll d (fun _ _ _ => True) (fun _ _ => afterColon item) := by
  intro before key v b₁ b₂ w rest _ hb₁ hb₂ hw hn hr
  exact (afterColon_read hb₁ _).trans (hi hb₂ hw hn hr)

theorem value_spells : ∀ d : Nat, ReadsOnly d (value d) := by
  intro d
  induction d with
  | zero =>
    intro text rest v h
    obtain ⟨b, hb, ht⟩ := exists_blanks text
    simp only [value, next] at h
    split at h
    · cases h
    · rename_i c after hs
      rw [hs] at ht
      split at h
      · cases h
      split at h
      · cases h
      · obtain ⟨w, hw, hn, hrest⟩ := scalar_spells h
        exact ⟨b, w, hb, hw, Nat.le_of_eq hn, by rw [ht, hrest]⟩
  | succ d ih =>
    intro text rest v h
    obtain ⟨b, hb, ht⟩ := exists_blanks text
    simp only [value, next] at h
    split at h
    · cases h
    · rename_i c after hs
      rw [hs] at ht
      split at h
      · rename_i hc
        obtain ⟨⟨vs, r⟩, h₁, h₂⟩ := bind_eq_ok.mp h
        cases h₂
        obtain ⟨body, hbody, hn, rfl⟩ := list_spells ih h₁
        exact ⟨b, '[' :: body, hb, ⟨body, hbody, rfl⟩, Nat.succ_le_succ hn, by rw [ht, hc]; rfl⟩
      split at h
      · rename_i hc
        obtain ⟨⟨ms, r⟩, h₁, h₂⟩ := bind_eq_ok.mp h
        cases h₂
        obtain ⟨-, body, hbody, hn, rfl⟩ := object_spells (afterColon_only ih) h₁
        exact ⟨b, '{' :: body, hb, ⟨body, hbody, rfl⟩, Nat.succ_le_succ hn, by rw [ht, hc]; rfl⟩
      · obtain ⟨w, hw, hn, hrest⟩ := scalar_spells h
        exact ⟨b, w, hb, hw, by omega, by rw [ht, hrest]⟩

theorem chain_true : ∀ (before : List String) (ms : List (String × Value)), Chain (fun _ _ _ => True) before ms
  | _, [] => trivial
  | before, (k, _) :: ms => ⟨trivial, chain_true (k :: before) ms⟩

theorem next_read {list object : Reader Value} {v : Value} {b w rest : List Char} (hb : Blanks b) (hw : v.Spells w)
    (hr : Boundary rest) : (v.nesting = 0 ∧ next list object (b ++ (w ++ rest)) = .ok (v, rest)) ∨
      (∃ vs body, v = .arr vs ∧ SpellsItems true vs body ∧
        next list object (b ++ (w ++ rest)) = list (body ++ rest)) ∨
      ∃ ms body, v = .obj ms ∧ SpellsMembers true ms body ∧
        next list object (b ++ (w ++ rest)) = object (body ++ rest) := by
  obtain ⟨c, t, rfl, hc, -, hs⟩ := spells_cons hw
  have hskip : skipBlanks (b ++ (c :: t ++ rest)) = c :: (t ++ rest) := skipBlanks_lead hb hc _
  by_cases hn : v.nesting = 0
  · refine .inl ⟨hn, ?_⟩
    simp only [next, hskip, (hs hn).1, (hs hn).2, if_false]
    exact scalar_read hw hn hr
  · cases v with
    | arr vs =>
      obtain ⟨body, hbody, heq⟩ := hw
      obtain ⟨rfl, rfl⟩ := List.cons.inj heq
      refine .inr (.inl ⟨vs, t, rfl, hbody, ?_⟩)
      simp only [next, hskip, if_true]
    | obj ms =>
      obtain ⟨body, hbody, heq⟩ := hw
      obtain ⟨rfl, rfl⟩ := List.cons.inj heq
      refine .inr (.inr ⟨ms, t, rfl, hbody, ?_⟩)
      simp only [next, hskip, show ('{' = '[') = False by decide, if_false, if_true]
    | _ => exact absurd rfl hn

theorem value_read : ∀ d : Nat, ReadsAll d (value d) := by
  intro d
  induction d with
  | zero =>
    intro v b w rest hb hw hn hr
    rcases next_read hb hw hr with ⟨-, h⟩ | ⟨vs, body, rfl, -, -⟩ | ⟨ms, body, rfl, -, -⟩
    · exact h
    · cases hn
    · cases hn
  | succ d ih =>
    intro v b w rest hb hw hn hr
    rcases next_read hb hw hr with ⟨-, h⟩ | ⟨vs, body, rfl, hbody, h⟩ | ⟨ms, body, rfl, hbody, h⟩
    · exact h
    · refine h.trans ?_
      rw [list_read ih hbody (Nat.le_of_succ_le_succ hn) rest]
      rfl
    · refine h.trans ?_
      rw [object_read (afterColon_all ih) (chain_true [] ms) hbody (Nat.le_of_succ_le_succ hn) rest]
      rfl

/-- A text holds one value only: whatever it spells is what the reader gives. -/
theorem document_unique {v v' : Value} {text : List Char} (h : v.Document text) (h' : v'.Document text) :
    v = v' := by
  have hread {u : Value} (hu : u.Document text) {d : Nat} (hd : u.nesting ≤ d) :
      ∃ rest, value d text = .ok (u, rest) := by
    obtain ⟨b₁, w, b₂, hb₁, hw, hb₂, rfl⟩ := hu
    have hend : Boundary (b₂ ++ []) := boundary_blanks hb₂ fun c hc => by cases hc
    rw [List.append_nil] at hend
    exact ⟨b₂, value_read d hb₁ hw hd hend⟩
  obtain ⟨rest, hv⟩ := hread h (Nat.le_max_left v.nesting v'.nesting)
  obtain ⟨rest', hv'⟩ := hread h' (Nat.le_max_right v.nesting v'.nesting)
  cases hv.symm.trans hv'
  rfl

end SharpTree.Source
