import SharpTree.Proofs.Source.Text

/-!
# Places inside a JSON value

A pointer leads from a value to one of its parts: each number in it is the index
of an item or of a member. Whatever text a value has, the text of a part can be
exchanged in it for that of another value, with blanks around it
(`exists_frame`).
-/

namespace SharpTree.Json

open Source (blanks_nil blanks_append)

abbrev Pointer := List Nat

namespace Value

/-- The values that the members of a name have. -/
def named {α : Type} (name : String) (ms : List (String × α)) : List α :=
  (ms.filter (·.1 = name)).map Prod.snd

def child? : Value → Nat → Option Value
  | .arr vs, i => vs[i]?
  | .obj ms, i => ms[i]?.map Prod.snd
  | _, _ => none

def setChild : Value → Nat → Value → Value
  | .arr vs, i, u => .arr (vs.set i u)
  | .obj ms, i, u => .obj (ms.modify i fun m => (m.1, u))
  | v, _, _ => v

def at? : Value → Pointer → Option Value
  | v, [] => some v
  | v, i :: π => (v.child? i).bind (at? · π)

def replace : Value → Pointer → Value → Value
  | _, [], u => u
  | v, i :: π, u =>
    match v.child? i with
    | some w => v.setChild i (replace w π u)
    | none => v

theorem at?_append : ∀ (v : Value) (π ρ : Pointer), v.at? (π ++ ρ) = (v.at? π).bind (at? · ρ)
  | v, [], ρ => by simp [at?]
  | v, i :: π, ρ => by
    rw [List.cons_append, at?, at?]
    cases v.child? i with
    | none => rfl
    | some w => exact at?_append w π ρ

theorem replace_append : ∀ {v w : Value} {π : Pointer}, v.at? π = some w → ∀ (ρ : Pointer) (u : Value),
    v.replace (π ++ ρ) u = v.replace π (w.replace ρ u)
  | v, w, [], h, ρ, u => by
    cases h
    rfl
  | v, w, i :: π, h, ρ, u => by
    obtain ⟨c, hc, hw⟩ := Option.bind_eq_some_iff.mp h
    simp only [List.cons_append, replace, hc, replace_append hw]

/-! ## What is inside a value -/

@[elab_as_elim]
theorem induct {P : Value → Prop} (null : P .null) (bool : ∀ b, P (.bool b)) (num : ∀ n, P (.num n))
    (str : ∀ s, P (.str s)) (arr : ∀ vs, (∀ v ∈ vs, P v) → P (.arr vs))
    (obj : ∀ ms, (∀ m ∈ ms, P m.2) → P (.obj ms)) (v : Value) : P v := by
  generalize hk : sizeOf v = k
  induction k using Nat.strongRecOn generalizing v with
  | ind k ih =>
    cases v with
    | null => exact null
    | bool b => exact bool b
    | num n => exact num n
    | str s => exact str s
    | arr vs =>
      apply arr
      intro v hv
      have hlt := List.sizeOf_lt_of_mem hv
      simp only [Value.arr.sizeOf_spec] at hk
      exact ih _ (by omega) v rfl
    | obj ms =>
      apply obj
      intro m hm
      have hlt := List.sizeOf_lt_of_mem hm
      obtain ⟨name, v⟩ := m
      simp only [Value.obj.sizeOf_spec, Prod.mk.sizeOf_spec] at hk hlt
      exact ih _ (by omega) v rfl

mutual
def numbers : Value → List Number
  | .num n => [n]
  | .arr vs => numbersItems vs
  | .obj ms => numbersMembers ms
  | _ => []
def numbersItems : List Value → List Number
  | [] => []
  | v :: vs => v.numbers ++ numbersItems vs
def numbersMembers : List (String × Value) → List Number
  | [] => []
  | (_, v) :: ms => v.numbers ++ numbersMembers ms
end

mutual
def mapNumbers (g : Number → Number) : Value → Value
  | .num n => .num (g n)
  | .arr vs => .arr (mapNumbersItems g vs)
  | .obj ms => .obj (mapNumbersMembers g ms)
  | v => v
def mapNumbersItems (g : Number → Number) : List Value → List Value
  | [] => []
  | v :: vs => v.mapNumbers g :: mapNumbersItems g vs
def mapNumbersMembers (g : Number → Number) : List (String × Value) → List (String × Value)
  | [] => []
  | (k, v) :: ms => (k, v.mapNumbers g) :: mapNumbersMembers g ms
end

theorem mapNumbersItems_eq_map (g : Number → Number) (vs : List Value) :
    mapNumbersItems g vs = vs.map (mapNumbers g) := by
  induction vs with
  | nil => rfl
  | cons v vs ih => rw [mapNumbersItems, ih, List.map_cons]

theorem mapNumbersMembers_eq_map (g : Number → Number) (ms : List (String × Value)) :
    mapNumbersMembers g ms = ms.map fun m => (m.1, m.2.mapNumbers g) := by
  induction ms with
  | nil => rfl
  | cons m ms ih => rw [mapNumbersMembers, ih, List.map_cons]

theorem mapNumbers_id (v : Value) : v.mapNumbers id = v := by
  induction v using induct with
  | arr vs ih =>
    rw [mapNumbers, mapNumbersItems_eq_map, List.map_congr_left ih, List.map_id']
  | obj ms ih =>
    rw [mapNumbers, mapNumbersMembers_eq_map, List.map_congr_left (g := id) fun m hm => by rw [ih m hm]; rfl,
      List.map_id]
  | _ => rfl

theorem nesting_mapNumbers (g : Number → Number) (v : Value) : (v.mapNumbers g).nesting = v.nesting := by
  induction v using induct with
  | arr vs ih =>
    have hitems : nestingItems (mapNumbersItems g vs) = nestingItems vs := by
      induction vs with
      | nil => rfl
      | cons v vs ihs =>
        obtain ⟨hv, hvs⟩ := List.forall_mem_cons.mp ih
        rw [mapNumbersItems, nestingItems, nestingItems, hv, ihs hvs]
    rw [mapNumbers, nesting, nesting, hitems]
  | obj ms ih =>
    have hmembers : nestingMembers (mapNumbersMembers g ms) = nestingMembers ms := by
      induction ms with
      | nil => rfl
      | cons m ms ihs =>
        obtain ⟨hm, hms⟩ := List.forall_mem_cons.mp ih
        rw [mapNumbersMembers, nestingMembers, nestingMembers, hm, ihs hms]
    rw [mapNumbers, nesting, nesting, hmembers]
  | _ => rfl

theorem mem_numbersItems {x : Number} {vs : List Value} : x ∈ numbersItems vs ↔ ∃ v ∈ vs, x ∈ v.numbers := by
  induction vs with
  | nil => simp [numbersItems]
  | cons v vs ih => simp [numbersItems, ih]

theorem mem_numbersMembers {x : Number} {ms : List (String × Value)} :
    x ∈ numbersMembers ms ↔ ∃ m ∈ ms, x ∈ m.2.numbers := by
  induction ms with
  | nil => simp [numbersMembers]
  | cons m ms ih => simp [numbersMembers, ih]

theorem nestingItems_le {b : Nat} {vs : List Value} : nestingItems vs ≤ b ↔ ∀ v ∈ vs, v.nesting ≤ b := by
  induction vs with
  | nil => simp [nestingItems]
  | cons v vs ih => rw [nestingItems, Nat.max_le, ih, List.forall_mem_cons]

theorem nestingMembers_le {b : Nat} {ms : List (String × Value)} :
    nestingMembers ms ≤ b ↔ ∀ m ∈ ms, m.2.nesting ≤ b := by
  induction ms with
  | nil => simp [nestingMembers]
  | cons m ms ih => rw [nestingMembers, Nat.max_le, ih, List.forall_mem_cons]

theorem nesting_child? {v w : Value} {i : Nat} (h : v.child? i = some w) : w.nesting < v.nesting := by
  cases v with
  | arr vs => exact Nat.lt_succ_of_le (nestingItems_le.mp (Nat.le_refl _) w (List.mem_of_getElem? h))
  | obj ms =>
    obtain ⟨m, hm, rfl⟩ := Option.map_eq_some_iff.mp h
    exact Nat.lt_succ_of_le (nestingMembers_le.mp (Nat.le_refl _) m (List.mem_of_getElem? hm))
  | _ => cases h

theorem nesting_at? : ∀ {v w : Value} {π : Pointer}, v.at? π = some w → w.nesting + π.length ≤ v.nesting
  | v, w, [], h => by
    cases h
    exact Nat.le_refl _
  | v, w, i :: π, h => by
    obtain ⟨c, hc, hw⟩ := Option.bind_eq_some_iff.mp h
    have := nesting_child? hc
    have := nesting_at? hw
    rw [List.length_cons]
    omega

theorem nesting_setChild_le {v u w : Value} {i : Nat} (hi : v.child? i = some w) (hu : u.nesting ≤ w.nesting) :
    (v.setChild i u).nesting ≤ v.nesting := by
  have hw := nesting_child? hi
  cases v with
  | arr vs =>
    simp only [setChild, nesting, Nat.lt_add_one_iff, Nat.add_le_add_iff_right] at hw ⊢
    apply nestingItems_le.mpr
    intro x hx
    rcases List.mem_or_eq_of_mem_set hx with hx | rfl
    · exact nestingItems_le.mp (Nat.le_refl _) x hx
    · omega
  | obj ms =>
    simp only [setChild, nesting, Nat.lt_add_one_iff, Nat.add_le_add_iff_right] at hw ⊢
    apply nestingMembers_le.mpr
    intro x hx
    obtain ⟨k, hk⟩ := List.getElem?_of_mem hx
    rw [List.getElem?_modify] at hk
    obtain ⟨m, hm, rfl⟩ := Option.map_eq_some_iff.mp hk
    split
    · change u.nesting ≤ _
      omega
    · exact nestingMembers_le.mp (Nat.le_refl _) m (List.mem_of_getElem? hm)
  | _ => cases hi

theorem nesting_replace_le : ∀ {v u w : Value} {π : Pointer}, v.at? π = some w → u.nesting ≤ w.nesting →
    (v.replace π u).nesting ≤ v.nesting
  | v, u, w, [], h, hu => by
    cases h
    exact hu
  | v, u, w, i :: π, h, hu => by
    obtain ⟨c, hc, hw⟩ := Option.bind_eq_some_iff.mp h
    rw [replace, hc]
    exact nesting_setChild_le hc (nesting_replace_le hw hu)

theorem numbers_at? {x : Number} : ∀ {v w : Value} {π : Pointer}, v.at? π = some w → x ∈ w.numbers → x ∈ v.numbers
  | v, w, [], h, hx => by
    cases h
    exact hx
  | .arr vs, w, i :: π, h, hx => by
    obtain ⟨c, hc, hw⟩ := Option.bind_eq_some_iff.mp h
    exact mem_numbersItems.mpr ⟨c, List.mem_of_getElem? hc, numbers_at? hw hx⟩
  | .obj ms, w, i :: π, h, hx => by
    obtain ⟨c, hc, hw⟩ := Option.bind_eq_some_iff.mp h
    obtain ⟨m, hm, rfl⟩ := Option.map_eq_some_iff.mp hc
    exact mem_numbersMembers.mpr ⟨m, List.mem_of_getElem? hm, numbers_at? hw hx⟩
  | .null, _, _ :: _, h, _ | .bool _, _, _ :: _, h, _ | .num _, _, _ :: _, h, _
  | .str _, _, _ :: _, h, _ => by cases h

/-! ## Places inside a text -/

theorem lead_append {first : Bool} {lead b : List Char} (hl : Lead first lead) (hb : Blanks b) :
    Lead first (lead ++ b) := by
  cases first with
  | true => exact blanks_append.mpr ⟨hl, hb⟩
  | false =>
    obtain ⟨b₁, b₂, hb₁, hb₂, rfl⟩ := hl
    exact ⟨b₁, b₂ ++ b, hb₁, blanks_append.mpr ⟨hb₂, hb⟩, by simp⟩

theorem append_lead {first : Bool} {b lead : List Char} (hb : Blanks b) (hl : Lead first lead) :
    Lead first (b ++ lead) := by
  cases first with
  | true => exact blanks_append.mpr ⟨hb, hl⟩
  | false =>
    obtain ⟨b₁, b₂, hb₁, hb₂, rfl⟩ := hl
    exact ⟨b ++ b₁, b₂, blanks_append.mpr ⟨hb, hb₁⟩, hb₂, by simp⟩

theorem spellsItems_append {first : Bool} {vs : List Value} {b w : List Char} (hb : Blanks b)
    (h : SpellsItems first vs w) : SpellsItems first vs (b ++ w) := by
  cases vs with
  | nil =>
    obtain ⟨b', hb', rfl⟩ := h
    exact ⟨b ++ b', blanks_append.mpr ⟨hb, hb'⟩, by simp⟩
  | cons v vs =>
    obtain ⟨lead, x, more, hl, hx, hm, rfl⟩ := h
    exact ⟨b ++ lead, x, more, append_lead hb hl, hx, hm, by simp⟩

theorem spellsMembers_append {first : Bool} {ms : List (String × Value)} {b w : List Char} (hb : Blanks b)
    (h : SpellsMembers first ms w) : SpellsMembers first ms (b ++ w) := by
  cases ms with
  | nil =>
    obtain ⟨b', hb', rfl⟩ := h
    exact ⟨b ++ b', blanks_append.mpr ⟨hb, hb'⟩, by simp⟩
  | cons m ms =>
    obtain ⟨lead, key, b₁, b₂, x, more, hl, hrest⟩ := h
    obtain ⟨hk, hb₁, hb₂, hx, hm, rfl⟩ := hrest
    exact ⟨b ++ lead, key, b₁, b₂, x, more, append_lead hb hl, hk, hb₁, hb₂, hx, hm, by simp⟩

theorem Spells.document {v : Value} {w : List Char} (h : v.Spells w) : v.Document w :=
  ⟨[], w, [], blanks_nil, h, blanks_nil, by simp⟩

theorem Document.append {v : Value} {b₁ w b₂ : List Char} (hb₁ : Blanks b₁) (h : v.Document w) (hb₂ : Blanks b₂) :
    v.Document (b₁ ++ (w ++ b₂)) := by
  obtain ⟨c₁, x, c₂, hc₁, hx, hc₂, rfl⟩ := h
  exact ⟨b₁ ++ c₁, x, c₂ ++ b₂, blanks_append.mpr ⟨hb₁, hc₁⟩, hx, blanks_append.mpr ⟨hc₂, hb₂⟩, by simp⟩

/-- Between the two texts any value may be written, with blanks around it: it becomes the part at the pointer. -/
def Frame (v : Value) (π : Pointer) (before after : List Char) : Prop :=
  ∀ ⦃u : Value⦄ ⦃x : List Char⦄, u.Document x → (v.replace π u).Document (before ++ (x ++ after))

theorem exists_item_frame : ∀ {vs : List Value} {first : Bool} {w : List Char} {i : Nat} {v : Value},
    SpellsItems first vs w → vs[i]? = some v →
    ∃ before x after, v.Spells x ∧ w = before ++ (x ++ after) ∧
      ∀ u y, Document u y → SpellsItems first (vs.set i u) (before ++ (y ++ after))
  | [], _, _, _, _, _, hi => by cases hi
  | v :: vs, first, w, 0, _, h, hi => by
    cases hi
    obtain ⟨lead, x, more, hl, hx, hm, rfl⟩ := h
    refine ⟨lead, x, more, hx, rfl, ?_⟩
    rintro u _ ⟨b₁, y, b₂, hb₁, hy, hb₂, rfl⟩
    exact ⟨lead ++ b₁, y, b₂ ++ more, lead_append hl hb₁, hy, spellsItems_append hb₂ hm, by simp⟩
  | v :: vs, first, w, i + 1, _, h, hi => by
    obtain ⟨lead, x, more, hl, hx, hm, rfl⟩ := h
    obtain ⟨before, y, after, hy, rfl, hf⟩ := exists_item_frame hm hi
    refine ⟨lead ++ (x ++ before), y, after, hy, by simp, ?_⟩
    intro u z hz
    exact ⟨lead, x, before ++ (z ++ after), hl, hx, hf u z hz, by simp⟩

theorem exists_member_frame : ∀ {ms : List (String × Value)} {first : Bool} {w : List Char} {i : Nat} {k : String}
    {v : Value}, SpellsMembers first ms w → ms[i]? = some (k, v) →
    ∃ before x after, v.Spells x ∧ w = before ++ (x ++ after) ∧
      ∀ u y, Document u y → SpellsMembers first (ms.modify i fun m => (m.1, u)) (before ++ (y ++ after))
  | [], _, _, _, _, _, _, hi => by cases hi
  | (_, _) :: ms, first, w, 0, _, _, h, hi => by
    cases hi
    obtain ⟨lead, key, b₁, b₂, x, more, hl, hk, hb₁, hb₂, hx, hm, rfl⟩ := h
    refine ⟨lead ++ (key ++ (b₁ ++ ':' :: b₂)), x, more, hx, by simp, ?_⟩
    rintro u _ ⟨c₁, y, c₂, hc₁, hy, hc₂, rfl⟩
    exact ⟨lead, key, b₁, b₂ ++ c₁, y, c₂ ++ more, hl, hk, hb₁, blanks_append.mpr ⟨hb₂, hc₁⟩, hy,
      spellsMembers_append hc₂ hm, by simp⟩
  | (_, _) :: ms, first, w, i + 1, _, _, h, hi => by
    obtain ⟨lead, key, b₁, b₂, x, more, hl, hk, hb₁, hb₂, hx, hm, rfl⟩ := h
    obtain ⟨before, y, after, hy, rfl, hf⟩ := exists_member_frame hm hi
    refine ⟨lead ++ (key ++ (b₁ ++ ':' :: (b₂ ++ (x ++ before)))), y, after, hy, by simp, ?_⟩
    intro u z hz
    exact ⟨lead, key, b₁, b₂, x, before ++ (z ++ after), hl, hk, hb₁, hb₂, hx, hf u z hz, by simp⟩

theorem exists_child_frame {v c : Value} {w : List Char} {i : Nat} (h : v.Spells w) (hi : v.child? i = some c) :
    ∃ before x after, c.Spells x ∧ w = before ++ (x ++ after) ∧
      ∀ u y, Document u y → (v.setChild i u).Spells (before ++ (y ++ after)) := by
  cases v with
  | arr vs =>
    obtain ⟨body, hb, rfl⟩ := h
    obtain ⟨before, x, after, hx, rfl, hf⟩ := exists_item_frame hb hi
    exact ⟨'[' :: before, x, after, hx, rfl, fun u y hy => ⟨_, hf u y hy, rfl⟩⟩
  | obj ms =>
    obtain ⟨⟨k, _⟩, hm, rfl⟩ := Option.map_eq_some_iff.mp hi
    obtain ⟨body, hb, rfl⟩ := h
    obtain ⟨before, x, after, hx, rfl, hf⟩ := exists_member_frame hb hm
    exact ⟨'{' :: before, x, after, hx, rfl, fun u y hy => ⟨_, hf u y hy, rfl⟩⟩
  | _ => cases hi

theorem exists_frame : ∀ {v c : Value} {w : List Char} {π : Pointer}, v.Spells w → v.at? π = some c →
    ∃ before x after, c.Spells x ∧ w = before ++ (x ++ after) ∧ v.Frame π before after
  | v, c, w, [], h, hc => by
    cases hc
    refine ⟨[], w, [], h, by simp, ?_⟩
    intro u y hy
    simpa [replace] using hy
  | v, c, w, i :: π, h, hc => by
    obtain ⟨d, hd, hcd⟩ := Option.bind_eq_some_iff.mp hc
    obtain ⟨before, x, after, hx, rfl, hf⟩ := exists_child_frame h hd
    obtain ⟨before', y, after', hy, rfl, hf'⟩ := exists_frame hx hcd
    refine ⟨before ++ before', y, after' ++ after, hy, by simp, ?_⟩
    intro u z hz
    have := (hf _ _ (hf' hz)).document
    simp only [replace, hd]
    simpa using this

end Value

end SharpTree.Json
