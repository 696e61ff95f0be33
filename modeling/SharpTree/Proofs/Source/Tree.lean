import Mathlib.Data.List.TakeWhile
import SharpTree.Proofs.Json.Pointer
import SharpTree.Proofs.Source.Value
import SharpTree.Source.Tree

/-!
# Which texts are trees

The outermost node is read by a reader of its own, which looks at the tag while
it reads. It accepts what the reader of values accepts, except that the tag has
to be a string (`root_spells`, `root_read`). So a text is read as a tree if and
only if it holds a tagged value that does not nest too deeply and stands for
that tree (`parse_eq_ok_iff`).
-/

namespace SharpTree

open Json

/-- A value whose tag is where the outermost node needs it: the only member `type`, or the first
item, and a string. -/
def Json.Value.Tagged : Value → Prop
  | .obj ms => ∃ s, Value.named "type" ms = [.str s]
  | .arr vs => ∃ s rest, vs = .str s :: rest
  | _ => False

namespace Source

open Json.Value (Spells SpellsItems SpellsMembers nesting nestingItems nestingMembers named)

/-! ## Tags -/

theorem refuse_ne_ok {α : Type} {s : Shape} {text : List Char} {r : α × List Char} : refuse s text ≠ .ok r := by
  intro h
  simp only [refuse] at h
  split at h
  · cases h
  split at h
  · cases h
  split at h
  · cases h
  · obtain ⟨_, -, h⟩ := bind_eq_ok.mp h
    cases h

theorem tag_spells {text rest : List Char} {v : Value} (h : tag text = .ok (v, rest)) :
    ∃ s b w, v = .str s ∧ Blanks b ∧ v.Spells w ∧ text = b ++ (w ++ rest) := by
  obtain ⟨b, hb, ht⟩ := exists_blanks text
  simp only [tag] at h
  split at h
  · rename_i after hs
    obtain ⟨⟨s, r⟩, h₁, h₂⟩ := bind_eq_ok.mp h
    cases h₂
    obtain ⟨w, hw, rfl⟩ := string_spells h₁
    exact ⟨s, b, '"' :: w, rfl, hb, hw, by rw [ht, hs]; rfl⟩
  · exact absurd h refuse_ne_ok

theorem tag_read {s : String} {b w : List Char} (hb : Blanks b) (hw : (Value.str s).Spells w) (rest : List Char) :
    tag (b ++ (w ++ rest)) = .ok (.str s, rest) := by
  simp only [Spells] at hw
  have hs := hw
  obtain ⟨x, -, rfl⟩ := hw
  have hread := string_read hs rest
  simp only [List.cons_append, tag, skipBlanks_lead hb (show isBlank '"' = false by decide), hread, bind,
    Except.bind]

/-- What the outermost node asks of a member: a tag comes only once, and is a string. -/
def RootMember (before : List String) (key : String) (v : Value) : Prop :=
  key = "type" → key ∉ before ∧ ∃ s, v = .str s

theorem rootMember_only (d : Nat) : MembersOnly d RootMember (rootMember d) := by
  intro before key text rest v h
  simp only [rootMember] at h
  split at h
  · split at h
    · cases h
    · rename_i hnew
      obtain ⟨⟨_, r⟩, h₁, h₂⟩ := bind_eq_ok.mp h
      obtain ⟨b₁, hb₁, rfl⟩ := colon_eq_ok.mp h₁
      obtain ⟨s, b₂, w, rfl, hb₂, hw, rfl⟩ := tag_spells h₂
      exact ⟨fun _ => ⟨hnew, s, rfl⟩, b₁, b₂, w, hb₁, hb₂, hw, Nat.zero_le _, rfl⟩
  · rename_i hkey
    have hv : MembersOnly d (fun _ _ _ => True) (fun _ _ => afterColon (value d)) :=
      afterColon_only (value_spells d)
    exact ⟨fun hk => absurd hk hkey, (@hv before key text rest v h).2⟩

theorem rootMember_all (d : Nat) : MembersAll d RootMember (rootMember d) := by
  intro before key v b₁ b₂ w rest hQ hb₁ hb₂ hw hn hr
  by_cases hkey : key = "type"
  · obtain ⟨hnew, s, rfl⟩ := hQ hkey
    simp only [rootMember, if_pos hkey, if_neg hnew, afterColon_read hb₁]
    exact tag_read hb₂ hw rest
  · simp only [rootMember, if_neg hkey, afterColon_read hb₁]
    exact value_read d hb₂ hw hn hr

/-! ## The outermost node -/

theorem chain_root_iff : ∀ {before : List String} {ms : List (String × Value)}, Chain RootMember before ms ↔
    named "type" ms = [] ∨ ("type" ∉ before ∧ ∃ s, named "type" ms = [.str s])
  | before, [] => by simp [Chain, named]
  | before, (k, v) :: ms => by
    have ih : Chain RootMember (k :: before) ms ↔ _ := chain_root_iff
    by_cases hk : k = "type"
    · subst hk
      have hn : named "type" (("type", v) :: ms) = v :: named "type" ms := by simp [named]
      rw [hn, Chain, ih]
      constructor
      · rintro ⟨h, h' | ⟨hn, -⟩⟩
        · obtain ⟨hb, s, rfl⟩ := h rfl
          exact .inr ⟨hb, s, by rw [h']⟩
        · exact absurd (List.mem_cons_self ..) hn
      · rintro (h | ⟨hb, s, h⟩)
        · cases h
        · obtain ⟨rfl, h'⟩ := List.cons.inj h
          exact ⟨fun _ => ⟨hb, s, rfl⟩, .inl h'⟩
    · have hn : named "type" ((k, v) :: ms) = named "type" ms := by simp [named, hk]
      rw [hn]
      simp only [Chain, RootMember, ih, List.mem_cons, not_or]
      constructor
      · rintro ⟨-, h | ⟨hb, h⟩⟩
        · exact .inl h
        · exact .inr ⟨hb.2, h⟩
      · rintro (h | ⟨hb, h⟩)
        · exact ⟨fun e => absurd e hk, .inl h⟩
        · exact ⟨fun e => absurd e hk, .inr ⟨⟨fun e => hk e.symm, hb⟩, h⟩⟩

theorem any_type_iff {ms : List (String × Value)} : ms.any (·.1 = "type") = true ↔ named "type" ms ≠ [] := by
  unfold named
  rw [Ne, List.map_eq_nil_iff, List.filter_eq_nil_iff]
  simp

theorem root_spells {d : Nat} {text rest : List Char} {v : Value} (h : root d text = .ok (v, rest)) :
    v.Tagged ∧ ∃ b w, Blanks b ∧ v.Spells w ∧ v.nesting ≤ d + 1 ∧ text = b ++ (w ++ rest) := by
  obtain ⟨b, hb, ht⟩ := exists_blanks text
  simp only [root] at h
  split at h
  · rename_i after hs
    rw [hs] at ht
    simp only [rootList] at h
    obtain ⟨b₁, hb₁, ht₁⟩ := exists_blanks after
    split at h
    · cases h
    · cases h
    · obtain ⟨⟨t, r₁⟩, h₁, h₁'⟩ := bind_eq_ok.mp h
      obtain ⟨⟨vs, r₂⟩, h₂, h₂'⟩ := bind_eq_ok.mp h₁'
      cases h₂'
      obtain ⟨s, b₂, x, rfl, hb₂, hx, hr⟩ := tag_spells h₁
      obtain ⟨more, hm, hn, rfl⟩ := moreItems_spells (value_spells d) h₂
      rw [hr] at ht₁
      refine ⟨⟨s, vs, rfl⟩, b, _, hb, ⟨_, ⟨b₁ ++ b₂, x, more, blanks_append.mpr ⟨hb₁, hb₂⟩, hx, hm, rfl⟩, rfl⟩, ?_,
        ?_⟩
      · simp only [nesting, nestingItems]
        omega
      · rw [ht, ht₁]
        simp
  · rename_i after hs
    rw [hs] at ht
    obtain ⟨⟨ms, r⟩, h₁, h₂⟩ := bind_eq_ok.mp h
    obtain ⟨hQ, body, hbody, hn, rfl⟩ := object_spells (rootMember_only d) h₁
    simp only at h₂
    split at h₂
    · rename_i hany
      cases h₂
      rcases chain_root_iff.mp hQ with he | ⟨-, htag⟩
      · exact absurd he (any_type_iff.mp hany)
      · exact ⟨htag, b, _, hb, ⟨body, hbody, rfl⟩, Nat.succ_le_succ hn, by rw [ht]; rfl⟩
    · cases h₂
  · exact absurd h refuse_ne_ok

theorem root_read {d : Nat} {b w rest : List Char} {v : Value} (hb : Blanks b) (hw : v.Spells w)
    (hn : v.nesting ≤ d + 1) (ht : v.Tagged) : root d (b ++ (w ++ rest)) = .ok (v, rest) := by
  cases v with
  | arr vs =>
    obtain ⟨s, vs, rfl⟩ := ht
    obtain ⟨body, ⟨lead, x, more, hl, hx, hm, rfl⟩, rfl⟩ := hw
    have hns : nestingItems vs ≤ d := by
      simp only [nesting, nestingItems] at hn
      omega
    have hlen : vs.length < (more ++ rest).length := by
      have := length_lt_of_items hm
      rw [List.length_append]
      omega
    have h₁ := tag_read blanks_nil hx (more ++ rest)
    have h₂ := moreItems_read (value_read d) rest hm hns hlen
    obtain ⟨c, t, rfl, hc, hne, -⟩ := spells_cons hx
    simp only [List.nil_append, List.cons_append] at h₁
    simp only [root, List.append_assoc, List.cons_append, skipBlanks_lead hb (show isBlank '[' = false by decide),
      rootList, skipBlanks_lead hl hc]
    split
    · rename_i heq; cases heq
    · rename_i heq; exact absurd (List.cons.inj heq).1 hne
    · simp only [h₁, h₂, bind, Except.bind]
  | obj ms =>
    obtain ⟨s, hs⟩ := ht
    obtain ⟨body, hbody, rfl⟩ := hw
    have hQ : Chain RootMember [] ms := chain_root_iff.mpr (.inr ⟨by simp, s, hs⟩)
    have h₁ := object_read (rootMember_all d) hQ hbody (Nat.le_of_succ_le_succ hn) rest
    have hany : ms.any (·.1 = "type") = true := any_type_iff.mpr (by rw [hs]; simp)
    simp only [root, List.cons_append, skipBlanks_lead hb (show isBlank '{' = false by decide), rootObject, h₁,
      hany, if_true, bind, Except.bind]
  | _ => cases ht

theorem finish_eq_ok {rest : List Char} {u : Unit} : finish rest = .ok u ↔ Blanks rest := by
  obtain ⟨b, hb, ht⟩ := exists_blanks rest
  constructor
  · intro h
    simp only [finish] at h
    split at h
    · rename_i hs
      rw [ht, hs, List.append_nil]
      exact hb
    · cases h
  · intro h
    have hs : skipBlanks rest = [] := List.dropWhile_eq_nil_iff.mpr h
    simp only [finish, hs]

end Source

/-! ## Texts of trees -/

theorem trimSpace_ne_nil {text : List Char} {c : Char} (hc : c ∈ text) (hs : isSpace c = false) :
    trimSpace text ≠ [] := by
  intro h
  rw [trimSpace, List.reverse_eq_nil_iff, List.dropWhile_eq_nil_iff] at h
  have hd : ∀ x ∈ text.dropWhile isSpace, isSpace x = true := fun x hx => h x (List.mem_reverse.mpr hx)
  have hall : ∀ x ∈ text, isSpace x = true := by
    intro x hx
    have hsplit : text = text.takeWhile isSpace ++ text.dropWhile isSpace := List.takeWhile_append_dropWhile.symm
    rw [hsplit] at hx
    rcases List.mem_append.mp hx with h' | h'
    · exact List.all_eq_true.mp List.all_takeWhile x h'
    · exact hd x h'
  rw [hall c hc] at hs
  cases hs

theorem Node.parse_eq_ok_iff {source : String} {n : Node} : Node.parse source = .ok n ↔
    ∃ v : Value, v.Document source.toList ∧ v.nesting < maxNesting ∧ v.Tagged ∧ Node.ofValue v = .ok n := by
  constructor
  · intro h
    simp only [Node.parse] at h
    split at h
    · cases h
    · split at h
      · cases h
      · rename_i v rest hroot
        obtain ⟨htag, b, w, hb, hw, hn, ht⟩ := Source.root_spells hroot
        split at h
        · cases h
        · rename_i m hm
          split at h
          · cases h
          · rename_i hfin
            cases h
            refine ⟨v, ⟨b, w, rest, hb, hw, Source.finish_eq_ok.mp hfin, ht⟩, ?_, htag, hm⟩
            simp only [maxNesting] at hn ⊢
            omega
  · rintro ⟨v, ⟨b₁, w, b₂, hb₁, hw, hb₂, ht⟩, hn, htag, hv⟩
    have hroot : Source.root (maxNesting - 2) source.toList = .ok (v, b₂) := by
      rw [ht]
      exact Source.root_read hb₁ hw (by simp only [maxNesting] at hn ⊢; omega) htag
    have htrim : trimSpace source.toList ≠ [] := by
      have hc : ∃ c t, w = c :: t ∧ isSpace c = false := by
        cases v with
        | arr vs =>
          obtain ⟨body, -, rfl⟩ := hw
          exact ⟨'[', body, rfl, by decide⟩
        | obj ms =>
          obtain ⟨body, -, rfl⟩ := hw
          exact ⟨'{', body, rfl, by decide⟩
        | _ => cases htag
      obtain ⟨c, t, rfl, hs⟩ := hc
      exact trimSpace_ne_nil (by rw [ht]; simp) hs
    have hfin : Source.finish b₂ = .ok () := Source.finish_eq_ok.mpr hb₂
    simp only [Node.parse, if_neg htrim, hroot, hv, hfin]

end SharpTree
