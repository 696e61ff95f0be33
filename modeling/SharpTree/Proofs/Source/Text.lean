import SharpTree.Proofs.Json.Spelling

/-!
# Strings are read from their spellings

What the reader of strings accepts is a spelling of what it returns
(`string_spells`), and it accepts every spelling (`string_read`).
-/

namespace SharpTree.Source

open Json

theorem bind_eq_ok {ε α β : Type} {x : Except ε α} {f : α → Except ε β} {b : β} :
    x >>= f = .ok b ↔ ∃ a, x = .ok a ∧ f a = .ok b := by
  simp only [bind, Except.bind]
  cases x <;> simp

/-! ## Blanks -/

theorem blanks_nil : Blanks [] := by
  intro c hc; cases hc

theorem blanks_append {a b : List Char} : Blanks (a ++ b) ↔ Blanks a ∧ Blanks b := by
  unfold Blanks
  simp only [List.mem_append]
  exact ⟨fun h => ⟨fun c hc => h c (.inl hc), fun c hc => h c (.inr hc)⟩, fun h c hc => hc.elim (h.1 c) (h.2 c)⟩

theorem skipBlanks_append {b : List Char} (hb : Blanks b) (t : List Char) : skipBlanks (b ++ t) = skipBlanks t := by
  unfold skipBlanks
  rw [List.dropWhile_append_of_pos hb]

theorem exists_blanks (t : List Char) : ∃ b, Blanks b ∧ t = b ++ skipBlanks t :=
  ⟨t.takeWhile isBlank, fun c hc => List.all_eq_true.mp List.all_takeWhile c hc,
    List.takeWhile_append_dropWhile.symm⟩

theorem skipBlanks_cons {c : Char} (hc : isBlank c = false) (t : List Char) : skipBlanks (c :: t) = c :: t := by
  simp [skipBlanks, hc]

theorem skipBlanks_lead {b : List Char} (hb : Blanks b) {c : Char} (hc : isBlank c = false) (t : List Char) :
    skipBlanks (b ++ c :: t) = c :: t := by
  rw [skipBlanks_append hb, skipBlanks_cons hc]

/-! ## Strings -/

theorem hexNumber_eq_ok {text rest : List Char} {n : Nat} :
    hexNumber text = .ok (n, rest) ↔ ∃ a b c d, hexNumber? a b c d = some n ∧ text = a :: b :: c :: d :: rest := by
  constructor
  · intro h
    unfold hexNumber at h
    split at h
    · rename_i a b c d after
      split at h
      · rename_i m hm
        cases h
        exact ⟨a, b, c, d, hm, rfl⟩
      · cases h
    · cases h
  · rintro ⟨a, b, c, d, h, rfl⟩
    simp only [hexNumber, h]

theorem escapePart_eq_ok {c : Char} {text rest : List Char} {u : Unit} :
    escapePart c text = .ok (u, rest) ↔ text = c :: rest := by
  cases text with
  | nil => simp [escapePart]
  | cons x after =>
    simp only [escapePart]
    split
    · rename_i hx; subst hx; simp
    · rename_i hx; simp [hx]

theorem unitEscape_spells {text rest : List Char} {x : Char} (h : unitEscape text = .ok (x, rest)) :
    ∃ w, SpellsChar x ('\\' :: 'u' :: w) ∧ text = w ++ rest := by
  obtain ⟨⟨n, r₁⟩, h₁, hn⟩ := bind_eq_ok.mp h
  obtain ⟨a, b, c, d, hm, rfl⟩ := hexNumber_eq_ok.mp h₁
  simp only at hn
  split at hn
  · cases hn
  · rename_i low
    split at hn
    · rename_i high
      obtain ⟨⟨_, r₂⟩, h₂, hr₂⟩ := bind_eq_ok.mp hn
      obtain ⟨⟨_, r₃⟩, h₃, hr₃⟩ := bind_eq_ok.mp hr₂
      obtain ⟨⟨n', r₄⟩, h₄, hr₄⟩ := bind_eq_ok.mp hr₃
      obtain rfl := escapePart_eq_ok.mp h₂
      obtain rfl := escapePart_eq_ok.mp h₃
      obtain ⟨e, f, g, k, hm', rfl⟩ := hexNumber_eq_ok.mp h₄
      simp only at hr₄
      split at hr₄
      · rename_i low'
        simp only [Except.ok.injEq, Prod.mk.injEq] at hr₄
        obtain ⟨rfl, rfl⟩ := hr₄
        exact ⟨_, .pair hm hm' high low', rfl⟩
      · cases hr₄
    · rename_i high
      cases hn
      exact ⟨_, .unit hm (Bool.eq_false_iff.mpr low) (Bool.eq_false_iff.mpr high), rfl⟩

theorem escape_spells {text rest : List Char} {x : Char} (h : escape text = .ok (x, rest)) :
    ∃ w, SpellsChar x ('\\' :: w) ∧ text = w ++ rest := by
  cases text with
  | nil => cases h
  | cons c after =>
    simp only [escape] at h
    split at h
    · rename_i y hy
      cases h
      exact ⟨[c], .letter hy, rfl⟩
    · split at h
      · rename_i hu
        subst hu
        obtain ⟨w, hw, rfl⟩ := unitEscape_spells h
        exact ⟨'u' :: w, hw, rfl⟩
      · cases h

theorem low_of_high {n : Nat} (h : isHighSurrogate n = true) : isLowSurrogate n = false := by
  simp only [isHighSurrogate, isLowSurrogate, Bool.and_eq_true, decide_eq_true_eq, Bool.and_eq_false_iff,
    decide_eq_false_iff_not] at h ⊢
  omega

theorem escape_read {x : Char} {w : List Char} (h : SpellsChar x ('\\' :: w)) (rest : List Char) :
    escape (w ++ rest) = .ok (x, rest) := by
  cases h with
  | plain _ slash _ => exact absurd rfl slash
  | letter h => simp only [escape, List.cons_append, List.nil_append, h]
  | unit h low high =>
    simp only [escape, List.cons_append, List.nil_append, show plainEscape? 'u' = none by decide, if_true,
      unitEscape]
    rw [hexNumber_eq_ok.mpr ⟨_, _, _, _, h, rfl⟩]
    simp [bind, Except.bind, low, high]
  | pair h₁ h₂ high low =>
    simp only [escape, List.cons_append, List.nil_append, show plainEscape? 'u' = none by decide, if_true,
      unitEscape]
    rw [hexNumber_eq_ok.mpr ⟨_, _, _, _, h₁, rfl⟩]
    simp [bind, Except.bind, low_of_high high, high, escapePart, hexNumber, h₂, low]

theorem chars_spells : ∀ {bound text rest cs : List Char}, chars bound text = .ok (cs, rest) →
    ∃ w, SpellsChars cs w ∧ text = w ++ '"' :: rest
  | [], _, _, _, h => by cases h
  | _ :: _, [], _, _, h => by cases h
  | _ :: bound, c :: text, rest, cs, h => by
    simp only [chars] at h
    split at h
    · rename_i hc
      cases h
      exact ⟨[], .nil, by rw [hc]; rfl⟩
    · rename_i hq
      split at h
      · rename_i hs
        obtain ⟨⟨x, r₁⟩, h₁, h⟩ := bind_eq_ok.mp h
        obtain ⟨⟨xs, r₂⟩, h₂, h⟩ := bind_eq_ok.mp h
        cases h
        obtain ⟨w, hw, rfl⟩ := escape_spells h₁
        obtain ⟨ws, hws, rfl⟩ := chars_spells h₂
        exact ⟨_, .cons hw hws, by rw [hs]; simp⟩
      · rename_i hs
        split at h
        · cases h
        · rename_i hlt
          obtain ⟨⟨xs, r₂⟩, h₂, h⟩ := bind_eq_ok.mp h
          cases h
          obtain ⟨ws, hws, rfl⟩ := chars_spells h₂
          exact ⟨_, .cons (.plain hq hs (Nat.le_of_not_lt hlt)) hws, rfl⟩

theorem spellsChar_cases {c : Char} {w : List Char} (h : SpellsChar c w) :
    (w = [c] ∧ c ≠ '"' ∧ c ≠ '\\' ∧ ¬ c.toNat < 0x20) ∨ ∃ w', w = '\\' :: w' := by
  cases h with
  | plain quote slash control => exact .inl ⟨rfl, quote, slash, Nat.not_lt.mpr control⟩
  | letter => exact .inr ⟨_, rfl⟩
  | unit => exact .inr ⟨_, rfl⟩
  | pair => exact .inr ⟨_, rfl⟩

theorem chars_read {cs w : List Char} (h : SpellsChars cs w) (rest : List Char) :
    ∀ bound : List Char, w.length < bound.length → chars bound (w ++ '"' :: rest) = .ok (cs, rest) := by
  induction h with
  | nil =>
    intro bound hb
    cases bound with
    | nil => cases hb
    | cons => simp [chars]
  | @cons c cs w ws head tail ih =>
    intro bound hb
    cases bound with
    | nil => cases hb
    | cons b bound =>
      rcases spellsChar_cases head with ⟨rfl, hq, hs, hc⟩ | ⟨w', rfl⟩
      · simp only [List.length_cons, List.cons_append, List.nil_append] at hb ⊢
        simp [chars, hq, hs, hc, ih bound (by omega), bind, Except.bind]
      · simp only [List.length_cons, List.length_append, List.cons_append, List.append_assoc] at hb ⊢
        simp [chars, escape_read head, ih bound (by omega), bind, Except.bind]

theorem string_spells {text rest : List Char} {s : String} (h : string text = .ok (s, rest)) :
    ∃ w, SpellsString s ('"' :: w) ∧ text = w ++ rest := by
  obtain ⟨⟨cs, r⟩, h₁, h⟩ := bind_eq_ok.mp h
  cases h
  obtain ⟨w, hw, rfl⟩ := chars_spells h₁
  refine ⟨w ++ ['"'], ⟨w, ?_, rfl⟩, by simp⟩
  rw [String.toList_ofList]
  exact hw

theorem string_read {s : String} {w : List Char} (h : SpellsString s ('"' :: w)) (rest : List Char) :
    string (w ++ rest) = .ok (s, rest) := by
  obtain ⟨x, hx, hw⟩ := h
  obtain rfl := (List.cons.inj hw).2
  have h₁ : chars (x ++ '"' :: rest) (x ++ '"' :: rest) = .ok (s.toList, rest) := chars_read hx rest _ (by simp)
  simp [string, h₁, bind, Except.bind]

end SharpTree.Source
