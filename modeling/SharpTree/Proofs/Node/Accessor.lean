import Mathlib.Data.List.Induction
import Mathlib.Data.List.Nodup
import SharpTree.Node.Accessor

/-!
# Binding accessors

The accessors of a property are bound one after the other, so that of several
with one key the last stays, at the place of the first. `Latest` says so without
the binding, for keys of any type (`latest_bindAll`).
-/

namespace SharpTree

variable {ν μ : Type}

def bindAll (bs : List (Accessor × ν)) : List (Accessor × ν) :=
  bs.foldl (fun found b => b.1.bind b.2 found) []

theorem Accessor.bind_of_not_mem {a : Accessor} {x : ν} : ∀ {as : List (Accessor × ν)}, a ∉ as.map Prod.fst →
    a.bind x as = as ++ [(a, x)]
  | [], _ => rfl
  | (b, old) :: as, h => by
    simp only [List.map_cons, List.mem_cons, not_or] at h
    rw [Accessor.bind, if_neg h.1, Accessor.bind_of_not_mem h.2, List.cons_append]

theorem Accessor.mem_bind {a : Accessor} {x : ν} {b : Accessor × ν} :
    ∀ {as : List (Accessor × ν)}, b ∈ a.bind x as → b = (a, x) ∨ b ∈ as
  | [], h => by simpa [Accessor.bind] using h
  | (c, old) :: as, h => by
    unfold Accessor.bind at h
    split at h
    · rcases List.mem_cons.mp h with h | h
      · exact .inl h
      · exact .inr (List.mem_cons_of_mem _ h)
    · rcases List.mem_cons.mp h with h | h
      · exact .inr (h ▸ List.mem_cons_self)
      · rcases Accessor.mem_bind h with h | h
        · exact .inl h
        · exact .inr (List.mem_cons_of_mem _ h)

theorem Accessor.nodup_bind {a : Accessor} {x : ν} : ∀ {as : List (Accessor × ν)}, (as.map Prod.fst).Nodup →
    ((a.bind x as).map Prod.fst).Nodup
  | [], _ => by simp [Accessor.bind]
  | (c, old) :: as, h => by
    simp only [List.map_cons, List.nodup_cons] at h
    unfold Accessor.bind
    split
    · rename_i hac
      rw [hac]
      simpa using h
    · rename_i hac
      rw [List.map_cons, List.nodup_cons]
      refine ⟨fun hc => ?_, Accessor.nodup_bind h.2⟩
      obtain ⟨b, hb, rfl⟩ := List.mem_map.mp hc
      rcases Accessor.mem_bind hb with rfl | hb
      · exact hac rfl
      · exact h.1 (List.mem_map_of_mem hb)

section

variable {bs : List (Accessor × ν)}

theorem foldl_bind_of_nodup : ∀ {bs found : List (Accessor × ν)}, ((found ++ bs).map Prod.fst).Nodup →
    bs.foldl (fun found b => b.1.bind b.2 found) found = found ++ bs
  | [], found, _ => by simp
  | b :: bs, found, h => by
    have hb : b.1 ∉ found.map Prod.fst := by
      rw [List.map_append, List.map_cons, List.nodup_append] at h
      exact fun hm => h.2.2 _ hm _ List.mem_cons_self rfl
    rw [List.foldl_cons, Accessor.bind_of_not_mem hb, foldl_bind_of_nodup (by simpa using h), List.append_assoc]
    rfl

theorem bindAll_of_nodup (h : (bs.map Prod.fst).Nodup) : bindAll bs = bs :=
  @foldl_bind_of_nodup ν bs [] h

theorem foldl_bind_inv {P : List (Accessor × ν) → Prop} (step : ∀ b ∈ bs, ∀ found, P found → P (b.1.bind b.2 found))
    {found : List (Accessor × ν)} (h : P found) : P (bs.foldl (fun found b => b.1.bind b.2 found) found) := by
  induction bs generalizing found with
  | nil => exact h
  | cons b bs ih =>
    exact ih (fun c hc => step c (List.mem_cons_of_mem _ hc)) (step b List.mem_cons_self found h)

theorem nodup_bindAll : ((bindAll bs).map Prod.fst).Nodup :=
  foldl_bind_inv (P := fun as => (as.map Prod.fst).Nodup) (fun _ _ _ h => Accessor.nodup_bind h) List.nodup_nil

theorem mem_of_mem_bindAll {b : Accessor × ν} (h : b ∈ bindAll bs) : b ∈ bs := by
  have hinv : ∀ c ∈ bindAll bs, c ∈ bs := by
    refine foldl_bind_inv (P := fun as => ∀ c ∈ as, c ∈ bs) (fun d hd found hf c hc => ?_) (by simp)
    rcases Accessor.mem_bind hc with rfl | hc
    · exact hd
    · exact hf c hc
  exact hinv b h

end

theorem Accessor.bind_map (h : ν → μ) (a : Accessor) (x : ν) : ∀ as : List (Accessor × ν),
    a.bind (h x) (as.map fun b => (b.1, h b.2)) = (a.bind x as).map fun b => (b.1, h b.2)
  | [] => rfl
  | (b, old) :: as => by
    simp only [List.map_cons, Accessor.bind]
    split
    · rfl
    · rw [Accessor.bind_map h a x as, List.map_cons]

theorem bindAll_map (h : ν → μ) (bs : List (Accessor × ν)) :
    bindAll (bs.map fun b => (b.1, h b.2)) = (bindAll bs).map fun b => (b.1, h b.2) := by
  have hfold : ∀ found : List (Accessor × ν),
      (bs.map fun b => (b.1, h b.2)).foldl (fun found b => b.1.bind b.2 found) (found.map fun b => (b.1, h b.2)) =
        (bs.foldl (fun found b => b.1.bind b.2 found) found).map fun b => (b.1, h b.2) := by
    induction bs with
    | nil => intro found; rfl
    | cons b bs ih =>
      intro found
      rw [List.map_cons, List.foldl_cons, List.foldl_cons, ← ih, ← Accessor.bind_map]
  exact hfold []

/-! ## What is left -/

/-- Each key once, in the order in which the keys come up, with what comes last for it. -/
structure Latest {κ : Type} [BEq κ] (bs as : List (κ × ν)) : Prop where
  keys : as.map Prod.fst = (bs.map Prod.fst).eraseDups
  last : ∀ a ∈ as, ∃ before after, bs = before ++ a :: after ∧ a.1 ∉ after.map Prod.fst

section

variable {κ ι : Type} [BEq κ] [LawfulBEq κ] [BEq ι] [LawfulBEq ι]

theorem eraseDups_concat_of_mem {k : κ} {ks : List κ} (h : k ∈ ks) : (ks ++ [k]).eraseDups = ks.eraseDups := by
  simp [List.eraseDups_append, List.removeAll, h]

theorem eraseDups_concat_of_not_mem {k : κ} {ks : List κ} (h : k ∉ ks) :
    (ks ++ [k]).eraseDups = ks.eraseDups ++ [k] := by
  simp [List.eraseDups_append, List.removeAll, h, List.eraseDups_cons]

theorem eraseDups_map {g : ι → κ} (hg : Function.Injective g) (ks : List ι) :
    (ks.map g).eraseDups = ks.eraseDups.map g := by
  induction ks using List.reverseRecOn with
  | nil => rfl
  | append_singleton ks k ih =>
    rw [List.map_append, List.map_cons, List.map_nil]
    by_cases hk : k ∈ ks
    · rw [eraseDups_concat_of_mem hk, eraseDups_concat_of_mem (List.mem_map_of_mem hk), ih]
    · have hgk : g k ∉ ks.map g := by
        rw [List.mem_map_of_injective hg]
        exact hk
      rw [eraseDups_concat_of_not_mem hk, eraseDups_concat_of_not_mem hgk, ih, List.map_append]
      rfl

theorem Latest.find?_reverse {bs as : List (κ × ν)} (h : Latest bs as) {a : κ × ν} (ha : a ∈ as) :
    bs.reverse.find? (·.1 == a.1) = some a := by
  obtain ⟨before, after, rfl, hlast⟩ := h.last a ha
  have hafter : after.reverse.find? (·.1 == a.1) = none := by
    rw [List.find?_eq_none]
    intro b hb e
    exact hlast (eq_of_beq e ▸ List.mem_map_of_mem (List.mem_reverse.mp hb))
  rw [List.reverse_append, List.reverse_cons, List.append_assoc, List.find?_append, hafter]
  simp

theorem Latest.unique {bs as cs : List (κ × ν)} (has : Latest bs as) (hcs : Latest bs cs) : as = cs := by
  have hfind {ds : List (κ × ν)} (h : Latest bs ds) :
      ds.map some = ((bs.map Prod.fst).eraseDups).map fun k => bs.reverse.find? (·.1 == k) := by
    rw [← h.keys, List.map_map]
    exact List.map_congr_left fun d hd => (h.find?_reverse hd).symm
  apply List.map_injective_iff.mpr fun _ _ e => Option.some.inj e
  rw [hfind has, hfind hcs]

theorem Latest.exists_of_map {g : ι → κ} {back : κ → ι} (hg : Function.LeftInverse back g) {bs : List (ι × ν)}
    {as : List (κ × ν)} (h : Latest (bs.map fun b => (g b.1, b.2)) as) :
    ∃ cs, as = cs.map (fun c => (g c.1, c.2)) ∧ Latest bs cs := by
  have hback : ∀ a ∈ as, a = (g (back a.1), a.2) := by
    intro a ha
    obtain ⟨before, after, hbs, -⟩ := h.last a ha
    have hab : a ∈ bs.map fun b => (g b.1, b.2) := by simp [hbs]
    obtain ⟨b, -, rfl⟩ := List.mem_map.mp hab
    rw [hg]
  obtain ⟨cs, rfl⟩ : ∃ cs : List (ι × ν), as = cs.map fun c => (g c.1, c.2) := by
    refine ⟨as.map fun a => (back a.1, a.2), ?_⟩
    rw [List.map_map]
    exact (List.map_id as).symm.trans (List.map_congr_left hback)
  refine ⟨cs, rfl, ?_, ?_⟩
  · apply List.map_injective_iff.mpr hg.injective
    have hkeys := h.keys
    rw [List.map_map, List.map_map] at hkeys
    rw [← eraseDups_map hg.injective, List.map_map, List.map_map]
    exact hkeys
  · intro c hc
    obtain ⟨before, after, hbs, hlast⟩ := h.last _ (List.mem_map_of_mem hc)
    obtain ⟨before, tail, rfl, rfl, htail⟩ := List.map_eq_append_iff.mp hbs
    obtain ⟨c', after, rfl, hc', rfl⟩ := List.map_eq_cons_iff.mp htail
    obtain ⟨hkey, hvalue⟩ := Prod.mk.inj hc'
    have hsame : c' = c := Prod.ext (hg.injective hkey) hvalue
    subst hsame
    refine ⟨before, after, rfl, fun hk => hlast ?_⟩
    obtain ⟨b, hb, hbk⟩ := List.mem_map.mp hk
    rw [← hbk, List.map_map]
    exact List.mem_map_of_mem (f := fun b : ι × ν => g b.1) hb

end

theorem Accessor.map_fst_bind_of_mem {a : Accessor} {x : ν} {as : List (Accessor × ν)} (h : a ∈ as.map Prod.fst) :
    (a.bind x as).map Prod.fst = as.map Prod.fst := by
  induction as with
  | nil => cases h
  | cons b as ih =>
    unfold Accessor.bind
    by_cases hab : a = b.1
    · rw [if_pos hab, List.map_cons, List.map_cons, hab]
    · rw [if_neg hab, List.map_cons, List.map_cons, ih ((List.mem_cons.mp h).resolve_left hab)]

theorem Accessor.eq_of_mem_bind {a : Accessor} {x : ν} {b : Accessor × ν} {as : List (Accessor × ν)}
    (hn : (as.map Prod.fst).Nodup) (hb : b ∈ a.bind x as) : b = (a, x) ∨ b ∈ as ∧ b.1 ≠ a := by
  induction as with
  | nil => exact .inl (List.mem_singleton.mp hb)
  | cons c as ih =>
    obtain ⟨hc, hn⟩ := List.nodup_cons.mp hn
    unfold Accessor.bind at hb
    by_cases hac : a = c.1
    · rw [if_pos hac] at hb
      rcases List.mem_cons.mp hb with hb | hb
      · exact .inl hb
      · exact .inr ⟨List.mem_cons_of_mem _ hb, fun e => hc (hac ▸ e ▸ List.mem_map_of_mem hb)⟩
    · rw [if_neg hac] at hb
      rcases List.mem_cons.mp hb with rfl | hb
      · exact .inr ⟨List.mem_cons_self, Ne.symm hac⟩
      · rcases ih hn hb with h | ⟨h, hne⟩
        · exact .inl h
        · exact .inr ⟨List.mem_cons_of_mem _ h, hne⟩

theorem bindAll_concat (bs : List (Accessor × ν)) (b : Accessor × ν) :
    bindAll (bs ++ [b]) = b.1.bind b.2 (bindAll bs) := by
  unfold bindAll
  rw [List.foldl_append]
  rfl

theorem map_fst_bindAll (bs : List (Accessor × ν)) : (bindAll bs).map Prod.fst = (bs.map Prod.fst).eraseDups := by
  induction bs using List.reverseRecOn with
  | nil => rfl
  | append_singleton bs b ih =>
    rw [bindAll_concat, List.map_append]
    by_cases hb : b.1 ∈ bs.map Prod.fst
    · rw [Accessor.map_fst_bind_of_mem (by rw [ih]; exact List.mem_eraseDups.mpr hb), ih]
      exact (eraseDups_concat_of_mem hb).symm
    · rw [Accessor.bind_of_not_mem (by rw [ih]; exact fun h => hb (List.mem_eraseDups.mp h)), List.map_append, ih]
      exact (eraseDups_concat_of_not_mem hb).symm

theorem latest_bindAll (bs : List (Accessor × ν)) : Latest bs (bindAll bs) := by
  refine ⟨map_fst_bindAll bs, ?_⟩
  induction bs using List.reverseRecOn with
  | nil => intro a ha; cases ha
  | append_singleton bs b ih =>
    intro a ha
    rw [bindAll_concat] at ha
    rcases Accessor.eq_of_mem_bind nodup_bindAll ha with rfl | ⟨ha, hne⟩
    · exact ⟨bs, [], rfl, List.not_mem_nil⟩
    · obtain ⟨before, after, hbs, hlast⟩ := ih a ha
      refine ⟨before, after ++ [b], by rw [hbs, List.append_assoc, List.cons_append], ?_⟩
      simp only [List.map_append, List.map_cons, List.map_nil, List.mem_append, List.mem_singleton, not_or]
      exact ⟨hlast, hne⟩

end SharpTree
