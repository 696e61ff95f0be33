import Mathlib.Data.List.Nodup
import SharpTree.Proofs.Json.Pointer

/-!
# Canonical values

The canonical form of a value has the members of every object in the order of
their names, no name twice. It is a fixed point of `canonical`
(`canonical_canonical`), nests no deeper than the value, and has no numbers that
the value does not have.
-/

namespace SharpTree.Json.Value

/-! ## Sorted members -/

def Sorted (ms : List (String × Value)) : Prop :=
  ms.Pairwise fun m n => m.1 < n.1

theorem mem_insertNew {k : String} {v : Value} {m : String × Value} : ∀ {ms : List (String × Value)},
    m ∈ insertNew k v ms → m = (k, v) ∨ m ∈ ms
  | [], h => by simpa [insertNew] using h
  | (l, w) :: ms, h => by
    unfold insertNew at h
    split at h
    · simpa using h
    split at h
    · exact .inr h
    · rcases List.mem_cons.mp h with rfl | h
      · exact .inr List.mem_cons_self
      · rcases mem_insertNew h with e | h
        · exact .inl e
        · exact .inr (List.mem_cons_of_mem _ h)

theorem insertNew_of_lt {k : String} {v : Value} {ms : List (String × Value)} (h : ∀ m ∈ ms, k < m.1) :
    insertNew k v ms = (k, v) :: ms := by
  cases ms with
  | nil => rfl
  | cons m ms => exact if_pos (h m List.mem_cons_self)

theorem sorted_insertNew {k : String} {v : Value} : ∀ {ms : List (String × Value)}, Sorted ms →
    Sorted (insertNew k v ms)
  | [], _ => List.pairwise_singleton _ _
  | (l, w) :: ms, h => by
    obtain ⟨hl, hms⟩ := List.pairwise_cons.mp h
    unfold insertNew
    split
    · rename_i hk
      refine List.pairwise_cons.mpr ⟨fun m hm => ?_, h⟩
      rcases List.mem_cons.mp hm with rfl | hm
      · exact hk
      · exact String.lt_trans hk (hl m hm)
    split
    · exact h
    · rename_i hle hne
      -- the names are linearly ordered, so the new one comes after this one
      have hlk : l < k := by
        by_cases hlk : l < k
        · exact hlk
        · exact absurd (String.le_antisymm (String.not_lt.mp hlk) (String.not_lt.mp hle)) hne
      refine List.pairwise_cons.mpr ⟨fun m hm => ?_, sorted_insertNew hms⟩
      rcases mem_insertNew hm with rfl | hm
      · exact hlk
      · exact hl m hm

theorem sorted_canonicalMembers (ms : List (String × Value)) : Sorted (canonicalMembers ms) := by
  induction ms with
  | nil => exact List.Pairwise.nil
  | cons m ms ih => exact sorted_insertNew ih

/-! ## The canonical form -/

theorem canonicalItems_eq_map (vs : List Value) : canonicalItems vs = vs.map canonical := by
  induction vs with
  | nil => rfl
  | cons v vs ih => rw [canonicalItems, ih, List.map_cons]

theorem mem_canonicalMembers {m : String × Value} : ∀ {ms : List (String × Value)}, m ∈ canonicalMembers ms →
    ∃ v, (m.1, v) ∈ ms ∧ m.2 = v.canonical
  | [], h => by cases h
  | (k, v) :: ms, h => by
    rw [canonicalMembers] at h
    rcases mem_insertNew h with rfl | h
    · exact ⟨v, List.mem_cons_self, rfl⟩
    · obtain ⟨w, hw, e⟩ := mem_canonicalMembers h
      exact ⟨w, List.mem_cons_of_mem _ hw, e⟩

theorem canonicalMembers_of_sorted : ∀ {ms : List (String × Value)}, Sorted ms → (∀ m ∈ ms, m.2.canonical = m.2) →
    canonicalMembers ms = ms
  | [], _, _ => rfl
  | (k, v) :: ms, hs, hc => by
    obtain ⟨hk, hms⟩ := List.pairwise_cons.mp hs
    rw [canonicalMembers, canonicalMembers_of_sorted hms fun m hm => hc m (List.mem_cons_of_mem _ hm),
      hc (k, v) List.mem_cons_self, insertNew_of_lt hk]

theorem canonical_canonical (v : Value) : v.canonical.canonical = v.canonical := by
  induction v using induct with
  | arr vs ih =>
    simp only [canonical, canonicalItems_eq_map, List.map_map, arr.injEq]
    exact List.map_congr_left ih
  | obj ms ih =>
    simp only [canonical, obj.injEq]
    refine canonicalMembers_of_sorted (sorted_canonicalMembers ms) fun m hm => ?_
    obtain ⟨v, hv, e⟩ := mem_canonicalMembers hm
    rw [e, ih _ hv]
  | _ => rfl

theorem nesting_canonical (v : Value) : v.canonical.nesting ≤ v.nesting := by
  induction v using induct with
  | arr vs ih =>
    simp only [canonical, nesting, canonicalItems_eq_map, Nat.add_le_add_iff_right, nestingItems_le, List.mem_map]
    rintro _ ⟨v, hv, rfl⟩
    exact Nat.le_trans (ih v hv) (nestingItems_le.mp (Nat.le_refl _) v hv)
  | obj ms ih =>
    simp only [canonical, nesting, Nat.add_le_add_iff_right, nestingMembers_le]
    intro m hm
    obtain ⟨v, hv, e⟩ := mem_canonicalMembers hm
    rw [e]
    exact Nat.le_trans (ih _ hv) (nestingMembers_le.mp (Nat.le_refl _) _ hv)
  | _ => exact Nat.le_refl _

theorem numbers_canonical {x : Number} (v : Value) (h : x ∈ v.canonical.numbers) : x ∈ v.numbers := by
  induction v using induct with
  | arr vs ih =>
    simp only [canonical, numbers, canonicalItems_eq_map] at h
    obtain ⟨_, hw, hx⟩ := mem_numbersItems.mp h
    obtain ⟨v, hv, rfl⟩ := List.mem_map.mp hw
    exact mem_numbersItems.mpr ⟨v, hv, ih v hv hx⟩
  | obj ms ih =>
    simp only [canonical, numbers] at h
    obtain ⟨m, hm, hx⟩ := mem_numbersMembers.mp h
    obtain ⟨v, hv, e⟩ := mem_canonicalMembers hm
    rw [e] at hx
    exact mem_numbersMembers.mpr ⟨_, hv, ih _ hv hx⟩
  | _ => exact h

/-! ## Members in another order -/

/-- Two values that differ in the order of members only. -/
inductive Reordered : Value → Value → Prop where
  | refl (v : Value) : Reordered v v
  | arr {vs ws : List Value} (length : vs.length = ws.length)
      (items : ∀ (i : Nat) v w, vs[i]? = some v → ws[i]? = some w → Reordered v w) : Reordered (.arr vs) (.arr ws)
  | obj {ms ns : List (String × Value)} (names : (ms.map Prod.fst).Perm (ns.map Prod.fst))
      (values : ∀ name v w, (name, v) ∈ ms → (name, w) ∈ ns → Reordered v w) : Reordered (.obj ms) (.obj ns)

/-- No object of the value has two members of one name. -/
def Distinct (v : Value) : Prop :=
  ∀ π ms, v.at? π = some (.obj ms) → (ms.map Prod.fst).Nodup

theorem Distinct.child {v w : Value} {i : Nat} (h : v.Distinct) (hw : v.child? i = some w) : w.Distinct :=
  fun π ms hms => h (i :: π) ms (by rw [at?, hw]; exact hms)

theorem mem_insertNew_self {k : String} {v : Value} {ms : List (String × Value)} :
    k ∈ (insertNew k v ms).map Prod.fst := by
  induction ms with
  | nil => simp [insertNew]
  | cons m ms ih =>
    unfold insertNew
    split
    · simp
    split
    · rename_i hk
      simp [hk]
    · exact List.mem_cons_of_mem _ ih

theorem mem_insertNew_of_mem {k : String} {v : Value} {m : String × Value} {ms : List (String × Value)}
    (h : m ∈ ms) : m ∈ insertNew k v ms := by
  induction ms with
  | nil => cases h
  | cons n ms ih =>
    unfold insertNew
    split
    · exact List.mem_cons_of_mem _ h
    split
    · exact h
    · rcases List.mem_cons.mp h with rfl | h
      · exact List.mem_cons_self
      · exact List.mem_cons_of_mem _ (ih h)

theorem mem_names_canonicalMembers {name : String} {ms : List (String × Value)} :
    name ∈ (canonicalMembers ms).map Prod.fst ↔ name ∈ ms.map Prod.fst := by
  constructor
  · intro h
    obtain ⟨m, hm, rfl⟩ := List.mem_map.mp h
    obtain ⟨v, hv, -⟩ := mem_canonicalMembers hm
    exact List.mem_map.mpr ⟨_, hv, rfl⟩
  · intro h
    induction ms with
    | nil => exact h
    | cons m ms ih =>
      rw [List.map_cons, List.mem_cons] at h
      rw [canonicalMembers]
      rcases h with rfl | h
      · exact mem_insertNew_self
      · obtain ⟨m', hm', rfl⟩ := List.mem_map.mp (ih h)
        exact List.mem_map_of_mem (mem_insertNew_of_mem hm')

theorem Sorted.nodup {ms : List (String × Value)} (h : Sorted ms) : (ms.map Prod.fst).Nodup := by
  refine List.pairwise_map.mpr (h.imp fun hlt heq => ?_)
  exact String.lt_irrefl _ (heq ▸ hlt)

/-- A value without repeated names has only its members sorted in the canonical form. -/
theorem reordered_canonical {v : Value} (h : v.Distinct) : v.Reordered v.canonical := by
  induction v using induct with
  | arr vs ih =>
    rw [canonical, canonicalItems_eq_map]
    refine .arr (by simp) fun i v w hv hw => ?_
    rw [List.getElem?_map, hv] at hw
    cases hw
    exact ih v (List.mem_of_getElem? hv) (h.child hv)
  | obj ms ih =>
    have hnodup : (ms.map Prod.fst).Nodup := h [] ms rfl
    rw [canonical]
    refine .obj ?_ fun name v w hv hw => ?_
    · rw [List.perm_ext_iff_of_nodup hnodup (sorted_canonicalMembers ms).nodup]
      exact fun name => mem_names_canonicalMembers.symm
    · obtain ⟨v', hv', rfl⟩ : ∃ v', (name, v') ∈ ms ∧ w = v'.canonical := mem_canonicalMembers hw
      cases List.inj_on_of_nodup_map hnodup hv hv' rfl
      obtain ⟨i, hi⟩ := List.getElem?_of_mem hv
      exact ih _ hv (h.child (i := i) (by simp [child?, hi]))
  | _ => exact .refl _

theorem Sorted.eq_of_mem_iff {ms ns : List (String × Value)} (hms : Sorted ms) (hns : Sorted ns)
    (h : ∀ m, m ∈ ms ↔ m ∈ ns) : ms = ns := by
  have hnodup {ls : List (String × Value)} (hls : Sorted ls) : ls.Nodup := by
    refine hls.imp fun hlt heq => ?_
    subst heq
    exact String.lt_irrefl _ hlt
  have hperm : ms.Perm ns := (List.perm_ext_iff_of_nodup (hnodup hms) (hnodup hns)).mpr h
  exact hperm.eq_of_pairwise (fun m n _ _ hmn hnm => absurd (String.lt_trans hmn hnm) (String.lt_irrefl _)) hms hns

theorem mem_canonicalMembers_iff {ms : List (String × Value)} (hn : (ms.map Prod.fst).Nodup) {m : String × Value} :
    m ∈ canonicalMembers ms ↔ ∃ v, (m.1, v) ∈ ms ∧ m.2 = v.canonical := by
  refine ⟨mem_canonicalMembers, fun h => ?_⟩
  obtain ⟨v, hv, hm⟩ := h
  have hname : m.1 ∈ (canonicalMembers ms).map Prod.fst :=
    mem_names_canonicalMembers.mpr (List.mem_map.mpr ⟨_, hv, rfl⟩)
  obtain ⟨m', hm', hname'⟩ := List.mem_map.mp hname
  obtain ⟨v', hv', hm''⟩ := mem_canonicalMembers hm'
  -- the member that is there has the name, hence the value
  rw [hname'] at hv'
  cases List.inj_on_of_nodup_map hn hv hv' rfl
  have hmm : m' = m := Prod.ext hname' (hm''.trans hm.symm)
  exact hmm ▸ hm'

/-- The order of members does not show in the canonical form. -/
theorem canonical_of_reordered {v w : Value} (h : v.Reordered w) (hv : v.Distinct) : w.canonical = v.canonical := by
  induction h with
  | refl v => rfl
  | @arr vs ws length items ih =>
    rw [canonical, canonical, canonicalItems_eq_map, canonicalItems_eq_map]
    refine congrArg _ (List.ext_getElem (by simp [length]) fun i hw hv' => ?_)
    rw [List.length_map] at hw hv'
    have hget := List.getElem?_eq_getElem hv'
    rw [List.getElem_map, List.getElem_map]
    exact ih i _ _ hget (List.getElem?_eq_getElem hw) (hv.child (i := i) hget)
  | @obj ms ns names values ih =>
    have hms : (ms.map Prod.fst).Nodup := hv [] ms rfl
    have hns : (ns.map Prod.fst).Nodup := names.nodup_iff.mp hms
    rw [canonical, canonical]
    refine congrArg _ ((sorted_canonicalMembers ns).eq_of_mem_iff (sorted_canonicalMembers ms) fun m => ?_)
    rw [mem_canonicalMembers_iff hns, mem_canonicalMembers_iff hms]
    have hvalue (u w : Value) (hu : (m.1, u) ∈ ms) (hw : (m.1, w) ∈ ns) : w.canonical = u.canonical := by
      obtain ⟨i, hi⟩ := List.getElem?_of_mem hu
      exact ih _ _ _ hu hw (hv.child (i := i) (by simp [child?, hi]))
    constructor
    · rintro ⟨w, hw, hm⟩
      obtain ⟨⟨_, u⟩, hu, rfl⟩ := List.mem_map.mp (names.mem_iff.mpr (List.mem_map_of_mem hw))
      exact ⟨u, hu, hm.trans (hvalue u w hu hw)⟩
    · rintro ⟨u, hu, hm⟩
      obtain ⟨⟨_, w⟩, hw, rfl⟩ := List.mem_map.mp (names.mem_iff.mp (List.mem_map_of_mem hu))
      exact ⟨w, hw, hm.trans (hvalue u w hu hw).symm⟩

end SharpTree.Json.Value
