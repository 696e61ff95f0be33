import SharpTree.Proofs.Files.Place
import SharpTree.Proofs.Source.Text

/-!
# Writing files

Directories that are made change no file. A file that is written is then read
back, and no other file has changed: `write_of_writable` and
`write_of_not_writable` say all that `write` does to files. Whether a path can be
written does not depend on the content.
-/

namespace SharpTree.Files

open Place (Within location)
open Source (bind_eq_ok)

variable {fs fs' : Files} {p : Path} {t : Target} {path : String} {content : ByteArray}

def fileAt (fs : Files) (loc : List String) : Option ByteArray :=
  (fs.top.view loc).join

def SameFiles (fs fs' : Files) : Prop :=
  ∀ loc, fs'.fileAt loc = fs.fileAt loc

def LeadsTo (fs : Files) (path : String) (loc : List String) : Prop :=
  ∃ start place, fs.start (.ofString path) = .ok start ∧ start.walk (Path.ofString path).names = .ok place ∧
    location place.above = loc

/-- The second tree has the content in the file that the path leads to, and all other files as in the first. -/
def Wrote (fs fs' : Files) (path : String) (content : ByteArray) : Prop :=
  fs'.read? path = some content ∧ ∃ loc, fs'.LeadsTo path loc ∧ fs'.fileAt loc = some content ∧
    ∀ other, other ≠ loc → fs'.fileAt other = fs.fileAt other

def Writable (fs : Files) (path : String) : Prop :=
  ∃ content, (fs.write path content).2 = .ok ()

theorem SameFiles.trans {fs₁ fs₂ fs₃ : Files} (h : SameFiles fs₁ fs₂) (h' : SameFiles fs₂ fs₃) :
    SameFiles fs₁ fs₃ :=
  fun loc => (h' loc).trans (h loc)

theorem SameFiles.refl (fs : Files) : SameFiles fs fs := fun _ => rfl

/-! ## Directories that names lead to -/

/-- From where such paths start, the names lead to a directory at the location. -/
def Reaches (fs : Files) (absolute : Bool) (names loc : List String) : Prop :=
  ∃ start entries above, fs.start ⟨absolute, []⟩ = .ok start ∧ start.walk names = .ok ⟨.dir entries, above⟩ ∧
    location above = loc

def Grows (fs fs' : Files) : Prop :=
  fs'.work = fs.work ∧ ∀ loc, fs.top.view loc = some none → fs'.top.view loc = some none

theorem within_top (top : Entry) : Within top (Place.mk top []).entry (Place.mk top []).above := rfl

theorem start_within {start : Place} (h : fs.start p = .ok start) : Within fs.top start.entry start.above :=
  Place.walk_within (within_top fs.top) h

theorem Grows.refl (fs : Files) : Grows fs fs := ⟨rfl, fun _ h => h⟩

theorem Grows.trans {fs₁ fs₂ fs₃ : Files} (h : Grows fs₁ fs₂) (h' : Grows fs₂ fs₃) : Grows fs₁ fs₃ :=
  ⟨h'.1.trans h.1, fun loc hloc => h'.2 loc (h.2 loc hloc)⟩

theorem Grows.reaches (hg : Grows fs fs') {absolute : Bool} {names loc : List String}
    (h : fs.Reaches absolute names loc) : fs'.Reaches absolute names loc := by
  obtain ⟨start, entries, above, hstart, hwalk, rfl⟩ := h
  obtain ⟨start', hstart', hloc⟩ : ∃ start', fs'.start ⟨absolute, []⟩ = .ok start' ∧
      location start'.above = location start.above := by
    unfold Files.start
    rw [hg.1]
    exact Place.walk_same hg.2 (within_top _) (within_top _) rfl hstart (Place.isDir_of_walk hwalk rfl)
  have hin := Place.walk_within (start_within hstart) hwalk
  obtain ⟨⟨entry, above'⟩, hwalk', habove⟩ :=
    Place.walk_same hg.2 (start_within hstart) (start_within hstart') hloc hwalk rfl
  have hin' := Place.walk_within (start_within hstart') hwalk'
  simp only at habove hin'
  obtain ⟨entries', rfl⟩ : ∃ entries', entry = .dir entries' := by
    have hview := hg.2 _ hin.view
    rw [← habove, hin'.view, Option.some_inj] at hview
    exact Entry.content?_eq_none.mp hview
  exact ⟨start', entries', above', hstart', hwalk', habove⟩

/-! ## Putting an entry somewhere -/

def Target.spot (t : Target) : List String := location t.above ++ [t.name]

theorem target?_eq_some (h : fs.target? p = .ok (some t)) :
    refusal? p = none ∧ p.names = p.names.dropLast ++ [t.name] ∧ t.name ≠ "." ∧ t.name ≠ ".." ∧
      ∃ start, fs.start p = .ok start ∧ start.walk p.names.dropLast = .ok ⟨.dir t.entries, t.above⟩ := by
  unfold target? at h
  split at h
  · cases h
  rename_i hp
  split at h
  · cases h
  rename_i last hlast
  obtain ⟨start, hstart, h⟩ := bind_eq_ok.mp h
  obtain ⟨⟨entry, above⟩, hhere, h⟩ := bind_eq_ok.mp h
  cases entry with
  | file content => cases h
  | dir entries =>
    simp only [Except.ok.injEq] at h
    split at h
    · cases h
    · rename_i hdots
      cases h
      simp only [Bool.or_eq_true, decide_eq_true_eq, not_or] at hdots
      obtain ⟨names, hnames⟩ := List.getLast?_eq_some_iff.mp hlast
      exact ⟨hp, by rw [hnames, List.dropLast_concat], hdots.1, hdots.2, start, hstart, hhere⟩

theorem target_within (h : fs.target? p = .ok (some t)) : Within fs.top (.dir t.entries) t.above := by
  obtain ⟨-, -, -, -, start, hstart, hhere⟩ := target?_eq_some h
  exact Place.walk_within (start_within hstart) hhere

theorem view_put (fs : Files) (t : Target) (e : Entry) (l : List String) :
    (fs.put t e).top.view (t.spot ++ l) = e.view l := by
  rw [Target.spot, ← Place.location_cons t.name t.entries]
  exact Entry.view_append (Place.get?_rebuild _ _) l

theorem view_put_elsewhere (h : Within fs.top (.dir t.entries) t.above) (e : Entry) {loc : List String}
    (hl : ¬ t.spot <+: loc) : (fs.put t e).top.view loc = fs.top.view loc := by
  rw [Target.spot, ← Place.location_cons t.name t.entries] at hl
  exact Place.view_rebuild h hl

theorem view_spot (h : Within fs.top (.dir t.entries) t.above) (l : List String) :
    fs.top.view (t.spot ++ l) = (t.entries.lookup t.name).bind (·.view l) := by
  rw [Target.spot, List.append_assoc, Entry.view_append h.get?]
  exact Entry.view_dir_cons _ _ _

theorem view_file_ne_dir (content : ByteArray) (l : List String) : (Entry.file content).view l ≠ some none := by
  cases l <;> simp [Entry.view, Entry.get?, Entry.content?]

/-- Every directory stays one when something is put where no directory is. -/
theorem put_grows (e : Entry) (h : Within fs.top (.dir t.entries) t.above)
    (hdir : ∀ entries, t.entries.lookup t.name ≠ some (.dir entries)) : Grows fs (fs.put t e) := by
  refine ⟨rfl, fun loc hloc => ?_⟩
  by_cases hl : t.spot <+: loc
  · obtain ⟨l, rfl⟩ := hl
    rw [view_spot h] at hloc
    obtain ⟨old, hold, hloc⟩ := Option.bind_eq_some_iff.mp hloc
    cases old with
    | dir entries => exact absurd hold (hdir entries)
    | file content => exact absurd hloc (view_file_ne_dir content l)
  · rw [view_put_elsewhere h _ hl, hloc]

theorem walk_put (e : Entry) (ht : fs.target? p = .ok (some t)) (hlen : t.name.utf8ByteSize ≤ maxName)
    (hdir : ∀ entries, t.entries.lookup t.name ≠ some (.dir entries)) :
    ∃ start entries above, (fs.put t e).start p = .ok start ∧
      start.walk p.names = .ok ⟨e, (t.name, entries) :: above⟩ ∧
      location ((t.name, entries) :: above) = t.spot := by
  obtain ⟨-, hnames, hdot, hdots, start, hstart, hhere⟩ := target?_eq_some ht
  have hgrows := put_grows e (target_within ht) hdir
  have hreach : fs.Reaches p.absolute p.names.dropLast (location t.above) := ⟨start, _, _, hstart, hhere, rfl⟩
  obtain ⟨start', entries, above, hstart', hhere', habove⟩ := hgrows.reaches hreach
  have hlast := Place.walk_within (start_within hstart') hhere'
  have hfile : entries.lookup t.name = some e := by
    have hget := Place.get?_rebuild ((t.name, t.entries) :: t.above) e
    rw [Place.location_cons, ← habove, Entry.get?_append] at hget
    rw [show Place.rebuild _ _ = (fs.put t e).top from rfl, hlast.get?, Option.bind_some, Entry.get?] at hget
    split at hget
    · rename_i he
      rw [he]
      exact hget
    · cases hget
  refine ⟨start', entries, above, hstart', ?_, by rw [Place.location_cons, habove]; rfl⟩
  rw [hnames, Place.walk_append, hhere']
  simp only [bind, Except.bind, Place.walk, Place.step, if_neg hdot, if_neg hdots, if_neg (Nat.not_lt.mpr hlen),
    hfile]

/-! ## Making directories -/

theorem makeDir_eq_ok (h : fs.makeDir p = .ok fs') :
    ∃ t, fs.target? p = .ok (some t) ∧ t.name.utf8ByteSize ≤ maxName ∧ t.entries.lookup t.name = none ∧
      fs' = fs.put t (.dir []) := by
  obtain ⟨_ | t, ht, h⟩ := bind_eq_ok.mp h
  · cases h
  simp only at h
  split at h
  · cases h
  rename_i hlen
  split at h
  · cases h
  · rename_i hnone
    cases h
    exact ⟨t, ht, Nat.le_of_not_lt hlen, Option.not_isSome_iff_eq_none.mp hnone, rfl⟩

theorem makeDir_sameFiles (h : fs.makeDir p = .ok fs') : SameFiles fs fs' := by
  obtain ⟨t, ht, -, hnone, rfl⟩ := makeDir_eq_ok h
  intro loc
  unfold fileAt
  by_cases hl : t.spot <+: loc
  · obtain ⟨l, rfl⟩ := hl
    rw [view_put, view_spot (target_within ht), hnone]
    cases l <;> rfl
  · rw [view_put_elsewhere (target_within ht) _ hl]

def ensureDir (p : Path) (fs : Files) : Files × Except FileError Unit :=
  match fs.makeDir p with
  | .ok fs => (fs, .ok ())
  | .error e => if fs.isDir p then (fs, .ok ()) else (fs, .error e)

theorem ensureDir_cases (p : Path) (fs : Files) :
    (∃ fs', fs.makeDir p = .ok fs' ∧ ensureDir p fs = (fs', .ok ())) ∨
      fs.isDir p = true ∧ ensureDir p fs = (fs, .ok ()) ∨
      (∃ e, fs.makeDir p = .error e ∧ fs.isDir p = false ∧ ensureDir p fs = (fs, .error e)) := by
  unfold ensureDir
  cases hmake : fs.makeDir p with
  | ok fs' => exact .inl ⟨fs', rfl, rfl⟩
  | error e =>
    cases hdir : fs.isDir p with
    | true => exact .inr (.inl ⟨rfl, rfl⟩)
    | false => exact .inr (.inr ⟨e, rfl, rfl, rfl⟩)

theorem makeDirs_idle {stretch : String} (h : Path.idle stretch = true) (absolute : Bool) (above : List String)
    (fs : Files) : makeDirs absolute (stretch :: above) fs = makeDirs absolute above fs := by
  rw [makeDirs, if_pos h]

/-- A directory is made at once, or else after the ones above it if one of these is missing. -/
theorem makeDirs_cons {stretch : String} (h : Path.idle stretch = false) (absolute : Bool) (above : List String)
    (fs : Files) :
    let path : Path := ⟨absolute, (stretch :: above).reverse⟩
    (fs.makeDir path ≠ .error .notFound ∧ makeDirs absolute (stretch :: above) fs = ensureDir path fs) ∨
      fs.makeDir path = .error .notFound ∧
        ((makeDirs absolute above fs).2 = .ok () ∧
            makeDirs absolute (stretch :: above) fs = ensureDir path (makeDirs absolute above fs).1 ∨
          (∃ e, (makeDirs absolute above fs).2 = .error e) ∧
            makeDirs absolute (stretch :: above) fs = makeDirs absolute above fs) := by
  intro path
  rw [makeDirs, if_neg (by rw [h]; decide)]
  split
  · rename_i hmissing
    refine .inr ⟨hmissing, ?_⟩
    generalize makeDirs absolute above fs = made
    obtain ⟨fs₁, e | done⟩ := made
    · exact .inr ⟨⟨e, rfl⟩, rfl⟩
    · exact .inl ⟨rfl, rfl⟩
  · rename_i hfound
    exact .inl ⟨hfound, rfl⟩

/-- What making one directory does, making several does. -/
theorem makeDirs_preserves {R : Files → Files → Prop} (hrefl : ∀ fs, R fs fs)
    (htrans : ∀ {fs₁ fs₂ fs₃}, R fs₁ fs₂ → R fs₂ fs₃ → R fs₁ fs₃) (absolute : Bool) {stretches : List String}
    (hmake : ∀ {fs fs' s}, s <:+ stretches → fs.makeDir ⟨absolute, s.reverse⟩ = .ok fs' → R fs fs') (fs : Files) :
    R fs (makeDirs absolute stretches fs).1 := by
  induction stretches generalizing fs with
  | nil => exact hrefl fs
  | cons stretch above ih =>
    have ih := ih fun hs => hmake (hs.trans (List.suffix_cons ..))
    have hensure (fs : Files) : R fs (ensureDir ⟨absolute, (stretch :: above).reverse⟩ fs).1 := by
      obtain ⟨fs', hfs', h⟩ | ⟨-, h⟩ | ⟨e, -, -, h⟩ := ensureDir_cases ⟨absolute, (stretch :: above).reverse⟩ fs
      · rw [h]
        exact hmake List.suffix_rfl hfs'
      · rw [h]
        exact hrefl fs
      · rw [h]
        exact hrefl fs
    cases hidle : Path.idle stretch with
    | true =>
      rw [makeDirs_idle hidle]
      exact ih fs
    | false =>
      obtain ⟨-, h⟩ | ⟨-, ⟨-, h⟩ | ⟨-, h⟩⟩ := makeDirs_cons hidle absolute above fs
      · rw [h]
        exact hensure fs
      · rw [h]
        exact htrans (ih fs) (hensure _)
      · rw [h]
        exact ih fs

theorem makeDirs_sameFiles (absolute : Bool) (stretches : List String) (fs : Files) :
    SameFiles fs (makeDirs absolute stretches fs).1 :=
  makeDirs_preserves .refl .trans absolute (fun _ => makeDir_sameFiles) fs

/-! ## Giving a file its content -/

theorem putFile_eq_ok (h : fs.putFile p content = .ok fs') :
    ∃ t, fs.target? p = .ok (some t) ∧ p.slash = false ∧ t.name.utf8ByteSize ≤ maxName ∧
      (∀ entries, t.entries.lookup t.name ≠ some (.dir entries)) ∧ fs' = fs.put t (.file content) := by
  obtain ⟨_ | t, ht, h⟩ := bind_eq_ok.mp h
  · cases h
  simp only at h
  split at h
  · cases h
  rename_i hslash
  split at h
  · cases h
  rename_i hlen
  split at h
  · cases h
  · rename_i hdir
    cases h
    refine ⟨t, ht, Bool.eq_false_iff.mpr hslash, Nat.le_of_not_lt hlen, fun entries he => hdir ?_, rfl⟩
    rw [he]
    rfl

theorem putFile_wrote (h : fs.putFile (.ofString path) content = .ok fs') : Wrote fs fs' path content := by
  obtain ⟨t, ht, hslash, hlen, hdir, rfl⟩ := putFile_eq_ok h
  obtain ⟨start, entries, above, hstart, hwalk, hspot⟩ := walk_put (.file content) ht hlen hdir
  refine ⟨?_, t.spot, ⟨start, _, hstart, hwalk, hspot⟩, ?_, fun other hother => ?_⟩
  · unfold read? find
    simp only [(target?_eq_some ht).1, hstart, hwalk, hslash, bind, Except.bind]
    rfl
  · have hview := view_put fs t (.file content) []
    rw [List.append_nil] at hview
    rw [fileAt, hview]
    rfl
  · unfold fileAt
    by_cases hl : t.spot <+: other
    · obtain ⟨l, rfl⟩ := hl
      have hl : l ≠ [] := fun hnil => hother (by rw [hnil, List.append_nil])
      obtain ⟨name, l, rfl⟩ := List.exists_cons_of_ne_nil hl
      rw [view_put, view_spot (target_within ht)]
      cases he : t.entries.lookup t.name with
      | none => rfl
      | some e =>
        cases e with
        | dir entries => exact absurd he (hdir entries)
        | file old => rfl
    · rw [view_put_elsewhere (target_within ht) _ hl]

/-! ## Writing -/

def withParents (fs : Files) (path : String) : Files × Except FileError Unit :=
  match (Path.ofString path).parent? with
  | some parent => makeDirs parent.absolute parent.stretches.reverse fs
  | none => (fs, .ok ())

theorem withParents_sameFiles (fs : Files) (path : String) : SameFiles fs (fs.withParents path).1 := by
  unfold withParents
  split
  · exact makeDirs_sameFiles _ _ fs
  · exact .refl fs

theorem write_eq (fs : Files) (path : String) (content : ByteArray) :
    fs.write path content = match fs.withParents path with
      | (fs, .ok ()) =>
        match fs.putFile (.ofString path) content with
        | .ok fs => (fs, .ok ())
        | .error e => (fs, .error e)
      | failed => failed := rfl

theorem write_cases (fs : Files) (path : String) (content : ByteArray) :
    ((fs.write path content).2 = .ok () ∧ Wrote fs (fs.write path content).1 path content) ∨
      ∃ e, (fs.write path content).2 = .error e ∧ SameFiles fs (fs.write path content).1 := by
  rw [write_eq]
  have hfs := withParents_sameFiles fs path
  split
  · rename_i fs₁ h
    rw [h] at hfs
    split
    · rename_i fs₂ hput
      obtain ⟨hread, loc, hleads, hfile, hother⟩ := putFile_wrote hput
      exact .inl ⟨rfl, hread, loc, hleads, hfile, fun other hne => (hother other hne).trans (hfs other)⟩
    · rename_i e hput
      exact .inr ⟨e, rfl, hfs⟩
  · rename_i hfailed
    cases h : (fs.withParents path).2 with
    | error e => exact .inr ⟨e, rfl, hfs⟩
    | ok done => exact (hfailed (fs.withParents path).1 (Prod.ext rfl h)).elim

theorem putFile_outcome (fs : Files) (p : Path) (c d : ByteArray) :
    (fs.putFile p c).map (fun _ => ()) = (fs.putFile p d).map fun _ => () := by
  unfold putFile
  cases fs.target? p with
  | error e => rfl
  | ok t =>
    cases t with
    | none => rfl
    | some t =>
      simp only [bind, Except.bind]
      repeat' split
      all_goals rfl

theorem write_outcome (fs : Files) (path : String) (c d : ByteArray) :
    (fs.write path c).2 = (fs.write path d).2 := by
  rw [write_eq, write_eq]
  split
  · rename_i fs₁ h
    have hput := putFile_outcome fs₁ (.ofString path) c d
    cases hc : fs₁.putFile (.ofString path) c <;> cases hd : fs₁.putFile (.ofString path) d <;>
      simp_all [Except.map]
  · rfl

theorem writable_iff (content : ByteArray) : fs.Writable path ↔ (fs.write path content).2 = .ok () :=
  ⟨fun ⟨c, h⟩ => (write_outcome fs path content c).trans h, fun h => ⟨content, h⟩⟩

/-- What can be written is: the path then leads to a file with the content, and nothing else has changed. -/
theorem write_of_writable (h : fs.Writable path) (content : ByteArray) :
    (fs.write path content).2 = .ok () ∧ Wrote fs (fs.write path content).1 path content := by
  obtain hwrote | ⟨e, he, -⟩ := write_cases fs path content
  · exact hwrote
  · cases ((writable_iff content).mp h).symm.trans he

/-- A write that fails leaves every file as it was. -/
theorem write_of_not_writable (h : ¬ fs.Writable path) (content : ByteArray) :
    ∃ e, (fs.write path content).2 = .error e ∧ SameFiles fs (fs.write path content).1 := by
  obtain ⟨hok, -⟩ | hfailed := write_cases fs path content
  · exact absurd ((writable_iff content).mpr hok) h
  · exact hfailed

end SharpTree.Files
