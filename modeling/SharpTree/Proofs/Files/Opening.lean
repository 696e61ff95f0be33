import SharpTree.Proofs.Files.Writing

/-!
# Paths that can be written

A path can be written if and only if it is well formed, passes through no file
and does not end at a directory: `writable_iff_openable`. Missing directories do
not matter, since they are made on the way.
-/

namespace SharpTree.Files

open Place (Within location)
open Source (bind_eq_ok)

def follow (loc : List String) (name : String) : List String :=
  if name = "." then loc else if name = ".." then loc.dropLast else loc ++ [name]

/-- The location that names lead to, whatever is on the way. -/
def destination (base names : List String) : List String :=
  names.foldl follow base

/-- No file is on the way, and every name can be that of a directory. -/
structure Passable (fs : Files) (base names : List String) : Prop where
  short : ∀ name ∈ names, name.utf8ByteSize ≤ maxName
  noFile : ∀ q, q <+: names → fs.fileAt (destination base q) = none

/-- A path that can be opened for writing: it is well formed and ends in the name of a file, no file is on the way
to that name, and neither is a directory at it nor does the way itself pass there. -/
structure Openable (fs : Files) (path : String) : Prop where
  wellFormed : refusal? (.ofString path) = none
  noSlash : (Path.ofString path).slash = false
  way : ∃ base init last, fs.Reaches (Path.ofString path).absolute [] base ∧
    (Path.ofString path).names = init ++ [last] ∧ last ≠ "." ∧ last ≠ ".." ∧ last.utf8ByteSize ≤ maxName ∧
    fs.Passable base init ∧ fs.top.view (destination base (init ++ [last])) ≠ some none ∧
    ∀ q, q <+: init → destination base q ≠ destination base (init ++ [last])

variable {fs fs' : Files} {p : Path} {t : Target} {absolute : Bool} {names base loc init : List String}
  {name last : String}

/-! ## Names that lead to directories -/

theorem destination_append (base names more : List String) :
    destination base (names ++ more) = destination (destination base names) more :=
  List.foldl_append

theorem fileAt_of_within {e : Entry} {above : List (String × List (String × Entry))} (h : Within fs.top e above) :
    fs.fileAt (location above) = e.content? := by
  rw [fileAt, h.view]
  rfl

theorem step_location {here there : Place} (h : here.step name = .ok there) :
    location there.above = follow (location here.above) name := by
  unfold follow
  obtain ⟨entries, -, ⟨rfl, rfl⟩ | ⟨hdot, rfl, rfl⟩ | ⟨hdot, hdots, -, e, -, rfl⟩⟩ := Place.step_eq_ok h
  · rw [if_pos rfl]
  · rw [if_neg hdot, if_pos rfl, Place.location_up]
  · rw [if_neg hdot, if_neg hdots, Place.location_cons]

theorem walk_location {here there : Place} (h : here.walk names = .ok there) :
    location there.above = destination (location here.above) names := by
  induction names generalizing here with
  | nil =>
    cases h
    rfl
  | cons name names ih =>
    obtain ⟨r, hr, h⟩ := Place.walk_cons.mp h
    rw [ih h, step_location hr]
    rfl

theorem Passable.cons : fs.Passable base (name :: names) ↔
    name.utf8ByteSize ≤ maxName ∧ fs.fileAt base = none ∧ fs.Passable (follow base name) names := by
  constructor
  · rintro ⟨hshort, hfile⟩
    obtain ⟨hname, hshort⟩ := List.forall_mem_cons.mp hshort
    exact ⟨hname, hfile [] List.nil_prefix, hshort,
      fun q hq => hfile (name :: q) (List.cons_prefix_cons.mpr ⟨rfl, hq⟩)⟩
  · rintro ⟨hname, hbase, hshort, hfile⟩
    refine ⟨List.forall_mem_cons.mpr ⟨hname, hshort⟩, fun q hq => ?_⟩
    cases q with
    | nil => exact hbase
    | cons other q =>
      obtain ⟨rfl, hrest⟩ := List.cons_prefix_cons.mp hq
      exact hfile q hrest

theorem short_of_step {here there : Place} (h : here.step name = .ok there) : name.utf8ByteSize ≤ maxName := by
  obtain ⟨entries, -, ⟨rfl, -⟩ | ⟨-, rfl, -⟩ | ⟨-, -, hlen, -⟩⟩ := Place.step_eq_ok h
  · decide
  · decide
  · exact hlen

theorem passable_of_walk {here there : Place} (hin : Within fs.top here.entry here.above)
    (h : here.walk names = .ok there) (hdir : there.entry.content? = none) :
    fs.Passable (location here.above) names := by
  induction names generalizing here with
  | nil =>
    cases h
    refine ⟨by simp, fun q hq => ?_⟩
    rw [List.prefix_nil.mp hq]
    exact (fileAt_of_within hin).trans hdir
  | cons name names ih =>
    have hhere := (fileAt_of_within hin).trans (Place.isDir_of_walk h hdir)
    obtain ⟨r, hr, h⟩ := Place.walk_cons.mp h
    rw [Passable.cons, ← step_location hr]
    exact ⟨short_of_step hr, hhere, ih (Place.step_within hin hr) h⟩

theorem isDir_up {here : Place} (h : here.entry.content? = none) : here.up.entry.content? = none := by
  unfold Place.up
  split
  · exact h
  · rfl

theorem step_of_no_file {here : Place} (hin : Within fs.top here.entry here.above)
    (hdir : here.entry.content? = none) (hlen : name.utf8ByteSize ≤ maxName)
    (hfile : fs.fileAt (follow (location here.above) name) = none) :
    (∃ there, here.step name = .ok there ∧ there.entry.content? = none) ∨ here.step name = .error .notFound := by
  obtain ⟨entries, he⟩ := Entry.content?_eq_none.mp hdir
  unfold follow at hfile
  unfold Place.step
  simp only [he, if_neg (Nat.not_lt.mpr hlen)]
  by_cases hdot : name = "."
  · exact .inl ⟨here, if_pos hdot, hdir⟩
  by_cases hdots : name = ".."
  · exact .inl ⟨here.up, by rw [if_neg hdot, if_pos hdots], isDir_up hdir⟩
  rw [if_neg hdot, if_neg hdots] at hfile ⊢
  cases hlook : entries.lookup name with
  | none => exact .inr rfl
  | some e =>
    have hbelow : Within fs.top e ((name, entries) :: here.above) := ⟨hlook, he ▸ hin⟩
    rw [← Place.location_cons name entries, fileAt_of_within hbelow] at hfile
    exact .inl ⟨_, rfl, hfile⟩

/-- Where no file is on the way, only a missing directory ends it. -/
theorem walk_of_passable {here : Place} (hin : Within fs.top here.entry here.above)
    (hdir : here.entry.content? = none) (h : fs.Passable (location here.above) names) :
    (∃ there, here.walk names = .ok there ∧ there.entry.content? = none) ∨ here.walk names = .error .notFound := by
  induction names generalizing here with
  | nil => exact .inl ⟨here, rfl, hdir⟩
  | cons name names ih =>
    obtain ⟨hlen, -, h⟩ := Passable.cons.mp h
    obtain ⟨r, hr, hrdir⟩ | hmissing := step_of_no_file hin hdir hlen (h.noFile [] List.nil_prefix)
    · rw [Place.walk, hr]
      exact ih (Place.step_within hin hr) hrdir (step_location hr ▸ h)
    · rw [Place.walk, hmissing]
      exact .inr rfl

theorem Reaches.view (h : fs.Reaches absolute names loc) : fs.top.view loc = some none := by
  obtain ⟨start, entries, above, hstart, hwalk, rfl⟩ := h
  exact (Place.walk_within (start_within hstart) hwalk).view

theorem Reaches.upTo {more : List String} (h : fs.Reaches absolute (names ++ more) loc) :
    ∃ loc', fs.Reaches absolute names loc' := by
  obtain ⟨start, entries, above, hstart, hwalk, -⟩ := h
  rw [Place.walk_append] at hwalk
  obtain ⟨⟨entry, above'⟩, hmid, hwalk⟩ := bind_eq_ok.mp hwalk
  obtain ⟨entries', rfl⟩ := Entry.content?_eq_none.mp (Place.isDir_of_walk hwalk rfl)
  exact ⟨_, start, entries', above', hstart, hmid, rfl⟩

theorem Reaches.start (h : fs.Reaches absolute names loc) : ∃ base, fs.Reaches absolute [] base :=
  Reaches.upTo (List.nil_append names ▸ h)

theorem Reaches.eq_destination (hbase : fs.Reaches absolute [] base) (h : fs.Reaches absolute names loc) :
    loc = destination base names := by
  obtain ⟨start, entries, above, hstart, hwalk, rfl⟩ := h
  obtain ⟨start', entries', above', hstart', hwalk', rfl⟩ := hbase
  cases hstart.symm.trans hstart'
  cases hwalk'
  exact walk_location hwalk

theorem Reaches.passable (hbase : fs.Reaches absolute [] base) (h : fs.Reaches absolute names loc) :
    fs.Passable base names := by
  obtain ⟨start, entries, above, hstart, hwalk, rfl⟩ := h
  obtain ⟨start', entries', above', hstart', hwalk', rfl⟩ := hbase
  cases hstart.symm.trans hstart'
  cases hwalk'
  exact passable_of_walk (start_within hstart) hwalk rfl

theorem Passable.reaches_or_missing (h : fs.Passable base names) (hbase : fs.Reaches absolute [] base) :
    fs.Reaches absolute names (destination base names) ∨
      ∃ start, fs.start ⟨absolute, []⟩ = .ok start ∧ start.walk names = .error .notFound := by
  obtain ⟨start, entries, above, hstart, hwalk, rfl⟩ := hbase
  cases hwalk
  obtain ⟨⟨entry, above'⟩, hthere, hdir⟩ | hmissing := walk_of_passable (start_within hstart) rfl h
  · obtain ⟨entries', rfl⟩ := Entry.content?_eq_none.mp hdir
    exact .inl ⟨_, entries', above', hstart, hthere, walk_location hthere⟩
  · exact .inr ⟨_, hstart, hmissing⟩

theorem SameFiles.passable (h : SameFiles fs fs') : fs'.Passable base names ↔ fs.Passable base names :=
  ⟨fun hp => ⟨hp.short, fun q hq => (h _).symm.trans (hp.noFile q hq)⟩,
    fun hp => ⟨hp.short, fun q hq => (h _).trans (hp.noFile q hq)⟩⟩

/-! ## Making directories where there are none -/

theorem target?_of_reaches (hp : refusal? p = none) (hnames : p.names = init ++ [last])
    (h : fs.Reaches p.absolute init loc) : (last = "." ∨ last = "..") ∧ fs.target? p = .ok none ∨
      last ≠ "." ∧ last ≠ ".." ∧ ∃ t, fs.target? p = .ok (some t) ∧ t.name = last ∧ location t.above = loc := by
  obtain ⟨start, entries, above, hstart, hwalk, rfl⟩ := h
  have hstart : fs.start p = .ok start := hstart
  unfold target?
  simp only [hp, hnames, List.getLast?_concat, List.dropLast_concat, hstart, hwalk, bind, Except.bind]
  by_cases hdots : last = "." ∨ last = ".."
  · exact .inl ⟨hdots, by simp [hdots]⟩
  · obtain ⟨hdot, hdots⟩ := not_or.mp hdots
    exact .inr ⟨hdot, hdots, ⟨entries, above, last⟩, by simp [hdot, hdots], rfl, rfl⟩

theorem target?_of_missing (hp : refusal? p = none) (hnames : p.names = init ++ [last])
    (h : ∃ start, fs.start ⟨p.absolute, []⟩ = .ok start ∧ start.walk init = .error .notFound) :
    fs.target? p = .error .notFound := by
  obtain ⟨start, hstart, hwalk⟩ := h
  have hstart : fs.start p = .ok start := hstart
  unfold target?
  simp only [hp, hnames, List.getLast?_concat, List.dropLast_concat, hstart, hwalk, bind, Except.bind]

theorem isDir_iff : fs.isDir p = true ↔ refusal? p = none ∧ ∃ loc, fs.Reaches p.absolute p.names loc := by
  constructor
  · intro h
    unfold isDir at h
    split at h
    · rename_i e hfind
      obtain ⟨entries, rfl⟩ : ∃ entries, e = .dir entries := by
        cases e with
        | file content => cases h
        | dir entries => exact ⟨entries, rfl⟩
      unfold find at hfind
      split at hfind
      · cases hfind
      · rename_i hp
        obtain ⟨start, hstart, hfind⟩ := bind_eq_ok.mp hfind
        obtain ⟨⟨entry, above⟩, hwalk, hfind⟩ := bind_eq_ok.mp hfind
        cases entry with
        | file content =>
          simp only at hfind
          split at hfind <;> cases hfind
        | dir entries => exact ⟨hp, _, start, entries, above, hstart, hwalk, rfl⟩
    · cases h
  · rintro ⟨hp, loc, start, entries, above, hstart, hwalk, -⟩
    have hstart : fs.start p = .ok start := hstart
    unfold isDir find
    simp only [hp, hstart, hwalk, bind, Except.bind]
    rfl

theorem makeDir_of_reaches (hp : refusal? p = none) (hnames : p.names = init ++ [last])
    (hinit : fs.Reaches p.absolute init loc) (hbase : fs.Reaches p.absolute [] base)
    (hpass : fs.Passable base p.names) : (∃ fs', fs.makeDir p = .ok fs') ∨ fs.isDir p = true := by
  obtain hthere | ⟨start, hstart, hmissing⟩ := hpass.reaches_or_missing hbase
  · exact .inr (isDir_iff.mpr ⟨hp, _, hthere⟩)
  left
  obtain ⟨start', entries, above, hstart', hwalk, rfl⟩ := hinit
  cases hstart.symm.trans hstart'
  have hstart : fs.start p = .ok start := hstart
  rw [hnames, Place.walk_append, hwalk] at hmissing
  simp only [bind, Except.bind, Place.walk, Place.step] at hmissing
  by_cases hdot : last = "."
  · simp [hdot] at hmissing
  by_cases hdots : last = ".."
  · simp [hdots] at hmissing
  by_cases hlen : maxName < last.utf8ByteSize
  · simp [hdot, hdots, hlen] at hmissing
  cases hlook : entries.lookup last with
  | some e => simp [hdot, hdots, hlen, hlook] at hmissing
  | none =>
    unfold makeDir target?
    simp [hp, hnames, hstart, hwalk, hdot, hdots, hlen, hlook, bind, Except.bind]

theorem makeDir_grows (h : fs.makeDir p = .ok fs') : Grows fs fs' := by
  obtain ⟨t, ht, -, hnone, rfl⟩ := makeDir_eq_ok h
  exact put_grows _ (target_within ht) (by simp [hnone])

theorem makeDir_reaches (h : fs.makeDir p = .ok fs') : ∃ loc, fs'.Reaches p.absolute p.names loc := by
  obtain ⟨t, ht, hlen, hnone, rfl⟩ := makeDir_eq_ok h
  obtain ⟨start, entries, above, hstart, hwalk, -⟩ := walk_put (.dir []) ht hlen (by simp [hnone])
  exact ⟨_, start, _, _, hstart, hwalk, rfl⟩

theorem target?_reaches (h : fs.target? p = .ok (some t)) :
    fs.Reaches p.absolute p.names.dropLast (location t.above) := by
  obtain ⟨-, -, -, -, start, hstart, hwalk⟩ := target?_eq_some h
  exact ⟨start, _, _, hstart, hwalk, rfl⟩

theorem spot_eq_destination (h : fs.target? p = .ok (some t)) (hbase : fs.Reaches p.absolute [] base) :
    t.spot = destination base p.names := by
  obtain ⟨-, hnames, hdot, hdots, -⟩ := target?_eq_some h
  rw [hnames, destination_append, ← hbase.eq_destination (target?_reaches h)]
  simp [Target.spot, destination, follow, hdot, hdots]

theorem view_makeDir (h : fs.makeDir p = .ok fs') (hbase : fs.Reaches p.absolute [] base)
    (hloc : fs'.top.view loc = some none) : fs.top.view loc = some none ∨ loc = destination base p.names := by
  obtain ⟨t, ht, -, -, rfl⟩ := makeDir_eq_ok h
  rw [← spot_eq_destination ht hbase]
  by_cases hl : t.spot <+: loc
  · obtain ⟨l, rfl⟩ := hl
    rw [view_put] at hloc
    cases l with
    | nil => exact .inr (List.append_nil _)
    | cons name l => cases hloc
  · rw [view_put_elsewhere (target_within ht) _ hl] at hloc
    exact .inl hloc

theorem makeDirs_grows (absolute : Bool) (stretches : List String) (fs : Files) :
    Grows fs (makeDirs absolute stretches fs).1 :=
  makeDirs_preserves .refl .trans absolute (fun _ => makeDir_grows) fs

theorem Reaches.dots {dots : List String} (hdots : ∀ name ∈ dots, name = ".") (h : fs.Reaches absolute names loc) :
    fs.Reaches absolute (names ++ dots) loc := by
  obtain ⟨start, entries, above, hstart, hwalk, rfl⟩ := h
  refine ⟨start, entries, above, hstart, ?_, rfl⟩
  rw [Place.walk_append, hwalk]
  clear hwalk
  induction dots with
  | nil => rfl
  | cons name dots ih =>
    obtain ⟨rfl, hrest⟩ := List.forall_mem_cons.mp hdots
    exact ih hrest

theorem names_append (absolute : Bool) (l m : List String) :
    (Path.mk absolute (l ++ m)).names = (Path.mk absolute l).names ++ (Path.mk absolute m).names :=
  List.filter_append ..

theorem idle_iff {stretch : String} : Path.idle stretch = true ↔ stretch = "" ∨ stretch = "." := by
  simp [Path.idle]

theorem makeDirs_reaches {stretches : List String} (hbase : fs.Reaches absolute [] base)
    (h : (makeDirs absolute stretches fs).2 = .ok ()) :
    ∃ loc, (makeDirs absolute stretches fs).1.Reaches absolute (Path.mk absolute stretches.reverse).names loc := by
  induction stretches generalizing fs with
  | nil => exact ⟨base, hbase⟩
  | cons stretch above ih =>
    have hensure {fs : Files} (h : (ensureDir ⟨absolute, (stretch :: above).reverse⟩ fs).2 = .ok ()) :
        ∃ loc, (ensureDir ⟨absolute, (stretch :: above).reverse⟩ fs).1.Reaches absolute
          (Path.mk absolute (stretch :: above).reverse).names loc := by
      obtain ⟨fs', hmake, he⟩ | ⟨hdir, he⟩ | ⟨e, -, -, he⟩ :=
        ensureDir_cases ⟨absolute, (stretch :: above).reverse⟩ fs
      · rw [he]
        exact makeDir_reaches hmake
      · rw [he]
        exact (isDir_iff.mp hdir).2
      · rw [he] at h
        cases h
    cases hidle : Path.idle stretch with
    | true =>
      rw [makeDirs_idle hidle] at h ⊢
      obtain ⟨loc, hloc⟩ := ih hbase h
      rw [List.reverse_cons, names_append]
      refine ⟨loc, hloc.dots ?_⟩
      obtain rfl | rfl := idle_iff.mp hidle <;> simp [Path.names]
    | false =>
      obtain ⟨-, hstep⟩ | ⟨-, ⟨-, hstep⟩ | ⟨⟨e, he⟩, hstep⟩⟩ := makeDirs_cons hidle absolute above fs
      · rw [hstep] at h ⊢
        exact hensure h
      · rw [hstep] at h ⊢
        exact hensure h
      · rw [hstep, he] at h
        cases h

theorem refusal?_eq_none : refusal? p = none ↔ (∀ name ∈ p.names, ∀ c ∈ name.toList, c.toNat ≠ 0) ∧
    p.isEmpty = false ∧ p.text.utf8ByteSize < maxPath := by
  unfold refusal?
  split
  · rename_i hchar
    simp only [List.any_eq_true, decide_eq_true_eq] at hchar
    obtain ⟨name, hname, c, hc, hzero⟩ := hchar
    simp only [reduceCtorEq, false_iff]
    exact fun h => h.1 name hname c hc hzero
  · rename_i hchars
    simp only [List.any_eq_true, decide_eq_true_eq] at hchars
    split
    · rename_i hempty
      simp [hempty]
    · rename_i hempty
      split
      · rename_i hsize
        simp only [reduceCtorEq, false_iff]
        exact fun h => Nat.not_lt.mpr hsize h.2.2
      · rename_i hsize
        exact ⟨fun _ => ⟨fun name hname c hc hzero => hchars ⟨name, hname, c, hc, hzero⟩,
          Bool.eq_false_iff.mpr hempty, Nat.lt_of_not_le hsize⟩, fun _ => rfl⟩

theorem utf8ByteSize_intercalate_le (l m : List String) :
    ("/".intercalate l).utf8ByteSize ≤ ("/".intercalate (l ++ m)).utf8ByteSize := by
  by_cases hl : l = []
  · simp [hl]
  by_cases hm : m = []
  · simp [hm]
  rw [String.intercalate_append_of_ne_nil hl hm, String.utf8ByteSize_append, String.utf8ByteSize_append]
  omega

theorem refusal?_upTo {l m : List String} (h : refusal? ⟨absolute, l ++ m⟩ = none)
    (hl : (Path.mk absolute l).names ≠ []) : refusal? ⟨absolute, l⟩ = none := by
  obtain ⟨hchars, -, hsize⟩ := refusal?_eq_none.mp h
  rw [names_append] at hchars
  refine refusal?_eq_none.mpr ⟨fun name hname => hchars name (List.mem_append_left _ hname), ?_, ?_⟩
  · simp [Path.isEmpty, hl]
  · have := utf8ByteSize_intercalate_le l m
    simp only [Path.text, String.utf8ByteSize_append] at hsize ⊢
    omega

theorem Passable.upTo {more : List String} (h : fs.Passable base (names ++ more)) : fs.Passable base names :=
  ⟨fun name hname => h.short name (List.mem_append_left _ hname),
    fun q hq => h.noFile q (hq.trans (List.prefix_append ..))⟩

/-- Where no file is on the way, all directories are made that are missing. -/
theorem makeDirs_of_passable {stretches ss : List String} (hp : refusal? ⟨absolute, stretches⟩ = none)
    (hss : ss.reverse <+: stretches) (hbase : fs.Reaches absolute [] base)
    (hpass : fs.Passable base (Path.mk absolute ss.reverse).names) : (makeDirs absolute ss fs).2 = .ok () := by
  induction ss generalizing fs with
  | nil => rfl
  | cons stretch above ih =>
    rw [List.reverse_cons] at hss
    have hnames := names_append absolute above.reverse [stretch]
    rw [List.reverse_cons, hnames] at hpass
    have ih := ih ((List.prefix_append ..).trans hss) hbase hpass.upTo
    cases hidle : Path.idle stretch with
    | true => rw [makeDirs_idle hidle, ih]
    | false =>
      have hlast : (Path.mk absolute [stretch]).names = [stretch] := by
        have := mt (fun h => idle_iff.mpr (.inl h)) (Bool.eq_false_iff.mp hidle)
        simp [Path.names, this]
      rw [hlast] at hnames hpass
      have hpath : refusal? ⟨absolute, above.reverse ++ [stretch]⟩ = none := by
        obtain ⟨more, rfl⟩ := hss
        exact refusal?_upTo hp (by simp [hnames])
      -- A directory whose own one is there can be made, and nothing that has been made is in the way.
      have hensure {fs' : Files} {loc : List String} (hg : Grows fs fs') (hsame : SameFiles fs fs')
          (hinit : fs'.Reaches absolute (Path.mk absolute above.reverse).names loc) :
          (ensureDir ⟨absolute, above.reverse ++ [stretch]⟩ fs').2 = .ok () := by
        have hmake := makeDir_of_reaches hpath hnames hinit (hg.reaches hbase)
          (by rw [hnames]; exact hsame.passable.mpr hpass)
        obtain ⟨_, -, he⟩ | ⟨-, he⟩ | ⟨e, hnot, hnodir, -⟩ :=
          ensureDir_cases ⟨absolute, above.reverse ++ [stretch]⟩ fs'
        · rw [he]
        · rw [he]
        · simp [hnot, hnodir] at hmake
      obtain ⟨hfound, hstep⟩ | ⟨-, ⟨-, hstep⟩ | ⟨⟨e, he⟩, -⟩⟩ := makeDirs_cons hidle absolute above fs
      · rw [hstep, List.reverse_cons]
        obtain hinit | hmissing := hpass.upTo.reaches_or_missing hbase
        · exact hensure (.refl fs) (.refl fs) hinit
        · rw [List.reverse_cons, makeDir, target?_of_missing hpath hnames hmissing] at hfound
          exact absurd rfl hfound
      · rw [hstep, List.reverse_cons]
        obtain ⟨loc, hinit⟩ := makeDirs_reaches hbase ih
        exact hensure (makeDirs_grows absolute above fs) (makeDirs_sameFiles absolute above fs) hinit
      · rw [ih] at he
        cases he

/-- The directories that are made are those that the path passes. -/
theorem view_makeDirs {stretches : List String} (hbase : fs.Reaches absolute [] base)
    (hloc : (makeDirs absolute stretches fs).1.top.view loc = some none) :
    fs.top.view loc = some none ∨
      ∃ q, q <+: (Path.mk absolute stretches.reverse).names ∧ loc = destination base q := by
  let R (fs fs' : Files) : Prop :=
    Grows fs fs' ∧ (fs.Reaches absolute [] base → ∀ loc, fs'.top.view loc = some none →
    fs.top.view loc = some none ∨ ∃ q, q <+: (Path.mk absolute stretches.reverse).names ∧ loc = destination base q)
  have hR : R fs (makeDirs absolute stretches fs).1 := by
    refine makeDirs_preserves (R := R) (fun fs => ⟨.refl fs, fun _ _ h => .inl h⟩) ?_ absolute ?_ fs
    · rintro fs₁ fs₂ fs₃ ⟨hg, h⟩ ⟨hg', h'⟩
      refine ⟨hg.trans hg', fun hbase loc hloc => ?_⟩
      obtain hloc | hq := h' (hg.reaches hbase) loc hloc
      · exact h hbase loc hloc
      · exact .inr hq
    · intro fs fs' s hs hmake
      refine ⟨makeDir_grows hmake, fun hbase loc hloc => ?_⟩
      obtain hloc | rfl := view_makeDir hmake hbase hloc
      · exact .inl hloc
      · exact .inr ⟨_, (List.reverse_prefix.mpr hs).filter _, rfl⟩
  exact hR.2 hbase loc hloc

theorem makeDirs_start (absolute : Bool) (stretches : List String) (fs : Files) :
    (makeDirs absolute stretches fs).1 = fs ∨ ∃ base, fs.Reaches absolute [] base := by
  refine makeDirs_preserves (R := fun fs fs' => fs' = fs ∨ ∃ base, fs.Reaches absolute [] base) (fun _ => .inl rfl)
    ?_ absolute ?_ fs
  · rintro fs₁ fs₂ fs₃ (rfl | h) h'
    · exact h'
    · exact .inr h
  · intro fs fs' s _ hmake
    obtain ⟨t, ht, -⟩ := makeDir_eq_ok hmake
    exact .inr (target?_reaches ht).start

/-! ## Opening a file -/

/-- The directory of a file is all of its path but the name, up to names that lead nowhere. -/
theorem parent?_eq_some (hslash : p.slash = false) (hnames : p.names = init ++ [last]) (hdot : last ≠ ".") :
    ∃ stretches dots, p.parent? = some ⟨p.absolute, stretches⟩ ∧ stretches <+: p.stretches ∧
      init = (Path.mk p.absolute stretches).names ++ dots ∧ ∀ name ∈ dots, name = "." := by
  obtain ⟨rest, x, hstretches⟩ : ∃ rest x, p.stretches = rest ++ [x] := by
    refine ⟨_, _, (List.dropLast_concat_getLast ?_).symm⟩
    rintro hnil
    simp [Path.names, hnil] at hnames
  have hx : x ≠ "" := by
    rintro rfl
    simp [Path.slash, hstretches] at hslash
  obtain ⟨rfl, hlast⟩ : (Path.mk p.absolute rest).names = init ∧ [x] = [last] := by
    refine List.append_inj' ?_ rfl
    rw [← hnames, Path.names, Path.names, hstretches, List.filter_append]
    simp [hx]
  obtain rfl := List.singleton_inj.mp hlast
  have hidle : ¬ Path.idle x = true := fun h => (idle_iff.mp h).elim hx hdot
  have hrest := congrArg List.reverse (List.takeWhile_append_dropWhile (p := Path.idle) (l := rest.reverse))
  rw [List.reverse_append, List.reverse_reverse] at hrest
  refine ⟨(rest.reverse.dropWhile Path.idle).reverse,
    (Path.mk p.absolute (rest.reverse.takeWhile Path.idle).reverse).names, ?_, ?_, ?_, fun name hname => ?_⟩
  · unfold Path.parent?
    rw [hstretches, List.reverse_append, List.reverse_singleton, List.singleton_append,
      List.dropWhile_cons_of_neg hidle]
  · rw [hstretches]
    exact (hrest ▸ List.prefix_append _ _).trans (List.prefix_append ..)
  · rw [← names_append, hrest]
  · obtain ⟨hmem, hne⟩ := List.mem_filter.mp hname
    have := List.all_eq_true.mp List.all_takeWhile name (List.mem_reverse.mp hmem)
    exact (idle_iff.mp this).resolve_left (by simpa using hne)

theorem write_eq_ok {path : String} {content : ByteArray} : (fs.write path content).2 = .ok () ↔
    (fs.withParents path).2 = .ok () ∧
      ∃ fs', (fs.withParents path).1.putFile (.ofString path) content = .ok fs' := by
  rw [write_eq]
  split
  · rename_i fs₁ h
    cases hput : fs₁.putFile (.ofString path) content <;> simp [h, hput]
  · rename_i hfailed
    constructor
    · exact fun hok => (hfailed _ (Prod.ext rfl hok)).elim
    · exact fun hok => (hfailed _ (Prod.ext rfl hok.1)).elim

theorem putFile_of_target {content : ByteArray} (ht : fs.target? p = .ok (some t)) (hslash : p.slash = false)
    (hlen : t.name.utf8ByteSize ≤ maxName) (hdir : ∀ entries, t.entries.lookup t.name ≠ some (.dir entries)) :
    ∃ fs', fs.putFile p content = .ok fs' := by
  have hfile : (t.entries.lookup t.name).any Entry.isDir = false := by
    cases hlook : t.entries.lookup t.name with
    | none => rfl
    | some e =>
      cases e with
      | file content => rfl
      | dir entries => exact absurd hlook (hdir entries)
  unfold putFile
  simp [ht, hslash, hfile, Nat.not_lt.mpr hlen, bind, Except.bind]

theorem withParents_grows (fs : Files) (path : String) : Grows fs (fs.withParents path).1 := by
  unfold withParents
  split
  · exact makeDirs_grows _ _ fs
  · exact .refl fs

theorem withParents_start (fs : Files) (path : String) :
    (fs.withParents path).1 = fs ∨ ∃ base, fs.Reaches (Path.ofString path).absolute [] base := by
  unfold withParents
  cases hparent : (Path.ofString path).parent? with
  | none => exact .inl rfl
  | some parent =>
    have habsolute : parent.absolute = (Path.ofString path).absolute := by
      unfold Path.parent? at hparent
      split at hparent
      · cases hparent
      · cases hparent
        rfl
    rw [← habsolute]
    exact makeDirs_start ..

theorem view_spot_iff (h : fs.target? p = .ok (some t)) :
    fs.top.view t.spot = some none ↔ ∃ entries, t.entries.lookup t.name = some (.dir entries) := by
  have hview := view_spot (target_within h) []
  rw [List.append_nil] at hview
  rw [hview]
  cases t.entries.lookup t.name with
  | none => simp
  | some e => cases e <;> simp [Entry.view, Entry.get?, Entry.content?]

theorem openable_of_writable {path : String} (h : fs.Writable path) : fs.Openable path := by
  obtain ⟨content, h⟩ := h
  obtain ⟨-, fs₂, hput⟩ := write_eq_ok.mp h
  obtain ⟨t, ht, hslash, hlen, hdir, -⟩ := putFile_eq_ok hput
  obtain ⟨hp, hnames, hdot, hdots, -⟩ := target?_eq_some ht
  have hinit := target?_reaches ht
  have hgrows := withParents_grows fs path
  obtain ⟨base, hbase⟩ : ∃ base, fs.Reaches (Path.ofString path).absolute [] base := by
    obtain hfs | hbase := withParents_start fs path
    · exact hfs ▸ hinit.start
    · exact hbase
  have hbase' := hgrows.reaches hbase
  have hnodir : (fs.withParents path).1.top.view (destination base (Path.ofString path).names) ≠ some none := by
    rw [← spot_eq_destination ht hbase', ne_eq, view_spot_iff ht]
    exact fun ⟨entries, he⟩ => hdir entries he
  rw [hnames] at hnodir
  refine ⟨hp, hslash, base, _, t.name, hbase, hnames, hdot, hdots, hlen,
    (withParents_sameFiles fs path).passable.mp (hbase'.passable hinit), fun hview => hnodir (hgrows.2 _ hview), ?_⟩
  rintro q ⟨more, hq⟩ heq
  rw [← hq] at hinit
  obtain ⟨loc, hloc⟩ := hinit.upTo
  rw [hbase'.eq_destination hloc, heq] at hloc
  exact hnodir hloc.view

theorem writable_of_openable {path : String} (h : fs.Openable path) : fs.Writable path := by
  obtain ⟨hp, hslash, base, init, last, hbase, hnames, hdot, hdots, hlen, hpass, hview, hway⟩ := h
  obtain ⟨stretches, dots, hparent, hpre, rfl, hidle⟩ := parent?_eq_some hslash hnames hdot
  have hmade : (makeDirs (Path.ofString path).absolute stretches.reverse fs).2 = .ok () :=
    makeDirs_of_passable hp (by rwa [List.reverse_reverse]) hbase (by rw [List.reverse_reverse]; exact hpass.upTo)
  obtain ⟨loc, hreach⟩ := makeDirs_reaches hbase hmade
  rw [List.reverse_reverse] at hreach
  obtain ⟨hdots', -⟩ | ⟨-, -, t, ht, rfl, -⟩ := target?_of_reaches hp hnames (hreach.dots hidle)
  · exact absurd hdots' (not_or.mpr ⟨hdot, hdots⟩)
  refine ⟨.empty, write_eq_ok.mpr ?_⟩
  rw [withParents, hparent]
  refine ⟨hmade, putFile_of_target ht hslash hlen fun entries he => ?_⟩
  have hspot := (view_spot_iff ht).mpr ⟨entries, he⟩
  rw [spot_eq_destination ht ((makeDirs_grows _ _ fs).reaches hbase), hnames] at hspot
  obtain hold | ⟨q, hq, heq⟩ := view_makeDirs hbase hspot
  · exact hview hold
  · rw [List.reverse_reverse] at hq
    exact hway q (hq.trans (List.prefix_append ..)) heq.symm

theorem writable_iff_openable {path : String} : fs.Writable path ↔ fs.Openable path :=
  ⟨openable_of_writable, writable_of_openable⟩

end SharpTree.Files
