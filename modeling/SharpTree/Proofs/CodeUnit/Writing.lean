import SharpTree.CodeUnit
import SharpTree.Proofs.Files.Opening
import SharpTree.Proofs.Files.Path

/-!
# Writing units

A path of ordinary names leads from the working directory to the location that
the names spell. A unit is written there if files can have such names, no file is
on the way and no directory at its end, and all other files stay as they are
(`UnitWrite.changes_one_file`). So after any number of writes a file has the
content of the last write to it that succeeded.
-/

namespace SharpTree

open Place (location)
open Files (Reaches Grows SameFiles destination)

/-! ## Paths of ordinary names -/

/-- A name that leads to an entry of the directory that it is followed in. -/
structure Ordinary (name : String) : Prop where
  ne_empty : name ≠ ""
  ne_dot : name ≠ "."
  ne_dots : name ≠ ".."
  noSlash : '/' ∉ name.toList

instance (name : String) : Decidable (Ordinary name) :=
  decidable_of_iff (name ≠ "" ∧ name ≠ "." ∧ name ≠ ".." ∧ '/' ∉ name.toList)
    ⟨fun h => ⟨h.1, h.2.1, h.2.2.1, h.2.2.2⟩, fun h => ⟨h.ne_empty, h.ne_dot, h.ne_dots, h.noSlash⟩⟩

/-- At least one name, none of which is too long, and all of which together are not. -/
structure RelativePath where
  names : List String
  ne_nil : names ≠ []
  ordinary : ∀ name ∈ names, Ordinary name
  short : ∀ name ∈ names, name.utf8ByteSize ≤ maxName
  fits : ("/".intercalate names).utf8ByteSize < maxPath

namespace RelativePath

def text (r : RelativePath) : String :=
  "/".intercalate r.names

/-- No name has the character that no file can have in its name. -/
def Nameable (r : RelativePath) : Prop :=
  ∀ name ∈ r.names, ∀ c ∈ name.toList, c.toNat ≠ 0

/-- No file is on the way from the location, and no directory at the end of it. -/
structure Free (r : RelativePath) (fs : Files) (base : List String) : Prop where
  noFile : ∀ q, q <+: r.names → q ≠ r.names → fs.fileAt (base ++ q) = none
  noDir : fs.top.view (base ++ r.names) ≠ some none

/-- The second tree has the content at the end of the path and directories on the way. All other files
are as in the first. -/
structure Filled (r : RelativePath) (base : List String) (content : ByteArray) (fs fs' : Files) : Prop where
  read : fs'.read? r.text = some content
  file : fs'.fileAt (base ++ r.names) = some content
  dirs : ∀ q, q <+: r.names → q ≠ r.names → fs'.top.view (base ++ q) = some none
  others : ∀ loc, loc ≠ base ++ r.names → fs'.fileAt loc = fs.fileAt loc

variable {r : RelativePath} {fs fs' : Files} {base : List String} {content : ByteArray}

theorem ofString_text (r : RelativePath) : Path.ofString r.text = ⟨false, r.names⟩ := by
  apply Path.ofString_intercalate r.ne_nil
  intro name hname
  exact ⟨(r.ordinary name hname).ne_empty, (r.ordinary name hname).noSlash⟩

theorem names_text (r : RelativePath) : (Path.ofString r.text).names = r.names := by
  rw [ofString_text, Path.names, List.filter_eq_self]
  intro name hname
  simpa using (r.ordinary name hname).ne_empty

theorem slash_text (r : RelativePath) : (Path.ofString r.text).slash = false := by
  rw [ofString_text]
  refine decide_eq_false fun hlast => ?_
  exact (r.ordinary "" (List.mem_of_getLast? hlast)).ne_empty rfl

theorem refusal?_text (r : RelativePath) : Files.refusal? (.ofString r.text) = none ↔ r.Nameable := by
  have hempty : (Path.ofString r.text).isEmpty = false := by
    simp [Path.isEmpty, names_text, r.ne_nil]
  have hsize : (Path.ofString r.text).text.utf8ByteSize < maxPath := by
    rw [ofString_text]
    simpa [Path.text] using r.fits
  rw [Files.refusal?_eq_none, names_text]
  exact ⟨fun h => h.1, fun h => ⟨h, hempty, hsize⟩⟩

end RelativePath

namespace Files

variable {fs fs' : Files} {base names : List String} {absolute : Bool} {path : String} {content : ByteArray}

theorem destination_ordinary (h : ∀ name ∈ names, Ordinary name) (base : List String) :
    destination base names = base ++ names := by
  induction names generalizing base with
  | nil => simp [destination]
  | cons name names ih =>
    obtain ⟨hname, hnames⟩ := List.forall_mem_cons.mp h
    have hstep : destination base (name :: names) = destination (base ++ [name]) names := by
      simp [destination, follow, hname.ne_dot, hname.ne_dots]
    rw [hstep, ih hnames, List.append_assoc, List.singleton_append]

theorem Reaches.unique {base' : List String} (h : fs.Reaches absolute [] base) (h' : fs.Reaches absolute [] base') :
    base' = base :=
  h.eq_destination h'

theorem reaches_of_walk {start place : Place} {more : List String} (hstart : fs.start ⟨absolute, []⟩ = .ok start)
    (h : start.walk (names ++ more) = .ok place) (hmore : more ≠ []) : ∃ loc, fs.Reaches absolute names loc := by
  obtain ⟨name, more, rfl⟩ := List.exists_cons_of_ne_nil hmore
  rw [Place.walk_append] at h
  obtain ⟨⟨entry, above⟩, hmid, h⟩ := Source.bind_eq_ok.mp h
  obtain ⟨next, hstep, -⟩ := Place.walk_cons.mp h
  obtain ⟨entries, rfl, -⟩ := Place.step_eq_ok hstep
  exact ⟨_, start, entries, above, hstart, hmid, rfl⟩

theorem putFile_grows {p : Path} (h : fs.putFile p content = .ok fs') : Grows fs fs' := by
  obtain ⟨t, ht, -, -, hdir, rfl⟩ := putFile_eq_ok h
  exact put_grows _ (target_within ht) hdir

theorem write_grows (fs : Files) (path : String) (content : ByteArray) : Grows fs (fs.write path content).1 := by
  have hparents := withParents_grows fs path
  rw [write_eq]
  split
  · rename_i fs₁ h
    rw [h] at hparents
    split
    · rename_i fs₂ hput
      exact hparents.trans (putFile_grows hput)
    · exact hparents
  · exact hparents

end Files

namespace RelativePath

variable {r : RelativePath} {fs fs' : Files} {base : List String} {content : ByteArray}

theorem destination_eq {q : List String} (hq : q <+: r.names) (base : List String) :
    destination base q = base ++ q :=
  Files.destination_ordinary (fun name hname => r.ordinary name (hq.subset hname)) base

theorem exists_concat (r : RelativePath) : ∃ init last, r.names = init ++ [last] :=
  ⟨_, _, (List.dropLast_concat_getLast r.ne_nil).symm⟩

theorem writable_iff (hbase : fs.Reaches false [] base) : fs.Writable r.text ↔ r.Nameable ∧ r.Free fs base := by
  rw [Files.writable_iff_openable]
  constructor
  · rintro ⟨hwell, -, base', init, last, hbase', hnames, -, -, -, hpass, hnodir, -⟩
    rw [ofString_text] at hbase'
    obtain rfl := hbase.unique hbase'
    rw [names_text] at hnames
    have hend : destination base' (init ++ [last]) = base' ++ r.names :=
      hnames ▸ destination_eq List.prefix_rfl base'
    refine ⟨(refusal?_text r).mp hwell, fun q hq hne => ?_, hend ▸ hnodir⟩
    rw [← destination_eq hq base']
    rw [hnames] at hq hne
    exact hpass.noFile q ((List.prefix_concat_iff.mp hq).resolve_left hne)
  · rintro ⟨hwell, hfree⟩
    obtain ⟨init, last, hnames⟩ := r.exists_concat
    have hlast : last ∈ r.names := by simp [hnames]
    have hinit {q : List String} (hq : q <+: init) : q <+: r.names ∧ q ≠ r.names := by
      refine ⟨hnames ▸ hq.trans (List.prefix_append ..), fun heq => ?_⟩
      have hlen := hq.length_le
      simp only [heq, hnames, List.length_append, List.length_singleton] at hlen
      omega
    have hend : destination base (init ++ [last]) = base ++ r.names := hnames ▸ destination_eq List.prefix_rfl base
    refine ⟨(refusal?_text r).mpr hwell, slash_text r, base, init, last, ?_, ?_, (r.ordinary last hlast).ne_dot,
      (r.ordinary last hlast).ne_dots, r.short last hlast, ⟨fun name hname => ?_, fun q hq => ?_⟩,
      hend ▸ hfree.noDir,
      fun q hq => ?_⟩
    · rwa [ofString_text]
    · rw [names_text, hnames]
    · exact r.short name (by simp [hnames, hname])
    · rw [destination_eq (hinit hq).1]
      exact hfree.noFile q (hinit hq).1 (hinit hq).2
    · rw [hend, destination_eq (hinit hq).1]
      exact fun heq => (hinit hq).2 (List.append_cancel_left heq)

theorem filled_of_wrote (hbase : fs'.Reaches false [] base) (h : fs.Wrote fs' r.text content) :
    r.Filled base content fs fs' := by
  obtain ⟨hread, loc, ⟨start, place, hstart, hwalk, rfl⟩, hfile, hothers⟩ := h
  rw [names_text] at hwalk
  rw [ofString_text] at hstart
  have hstart : fs'.start ⟨false, []⟩ = .ok start := hstart
  have hloc : location place.above = base ++ r.names := by
    obtain ⟨start', entries, above, hstart', hnil, rfl⟩ := hbase
    cases hstart.symm.trans hstart'
    cases hnil
    rw [Files.walk_location hwalk, destination_eq List.prefix_rfl]
  refine ⟨hread, hloc ▸ hfile, fun q hq hne => ?_, hloc ▸ hothers⟩
  obtain ⟨more, hmore⟩ := hq
  rw [← hmore] at hwalk
  have hmore_ne : more ≠ [] := by
    rintro rfl
    exact hne (by rw [← hmore, List.append_nil])
  obtain ⟨loc, hreach⟩ := Files.reaches_of_walk hstart hwalk hmore_ne
  rw [← destination_eq ⟨more, hmore⟩, ← hbase.eq_destination hreach]
  exact hreach.view

end RelativePath

/-! ## Writes -/

structure UnitWrite where
  path : RelativePath
  unit : CodeUnit

namespace UnitWrite

variable {w : UnitWrite} {fs : Files} {base : List String}

def apply (w : UnitWrite) (fs : Files) : Files :=
  (w.unit.write w.path.text fs).1

def Succeeds (w : UnitWrite) (fs : Files) : Prop :=
  (w.unit.write w.path.text fs).2.result = .ok ()

instance (w : UnitWrite) (fs : Files) : Decidable (w.Succeeds fs) :=
  match h : (w.unit.write w.path.text fs).2.result with
  | .ok () => isTrue h
  | .error e => isFalse fun hok => by cases h.symm.trans hok

theorem apply_eq (w : UnitWrite) (fs : Files) : w.apply fs = (fs.write w.path.text w.unit.content.toUTF8).1 := by
  unfold apply CodeUnit.write
  split <;> simp_all

theorem succeeds_iff_write : w.Succeeds fs ↔ (fs.write w.path.text w.unit.content.toUTF8).2 = .ok () := by
  unfold Succeeds CodeUnit.write
  split <;> simp_all

theorem succeeds_iff (hbase : fs.Reaches false [] base) :
    w.Succeeds fs ↔ w.path.Nameable ∧ w.path.Free fs base := by
  rw [succeeds_iff_write, ← Files.writable_iff, RelativePath.writable_iff hbase]

theorem apply_reaches (w : UnitWrite) (hbase : fs.Reaches false [] base) : (w.apply fs).Reaches false [] base := by
  rw [apply_eq]
  exact (Files.write_grows ..).reaches hbase

theorem filled_of_succeeds (hbase : fs.Reaches false [] base) (h : w.Succeeds fs) :
    w.path.Filled base w.unit.content.toUTF8 fs (w.apply fs) := by
  have hwritable : fs.Writable w.path.text := (Files.writable_iff _).mpr (succeeds_iff_write.mp h)
  refine RelativePath.filled_of_wrote (w.apply_reaches hbase) ?_
  rw [apply_eq]
  exact (Files.write_of_writable hwritable _).2

theorem sameFiles_of_not_succeeds (h : ¬ w.Succeeds fs) : SameFiles fs (w.apply fs) := by
  rw [succeeds_iff_write, ← Files.writable_iff] at h
  obtain ⟨-, -, hsame⟩ := Files.write_of_not_writable h w.unit.content.toUTF8
  rwa [apply_eq]

/-! ## One write after another -/

def applyAll (ws : List UnitWrite) (fs : Files) : Files :=
  ws.foldl (fun fs w => w.apply fs) fs

def successful : List UnitWrite → Files → List UnitWrite
  | [], _ => []
  | w :: ws, fs => if w.Succeeds fs then w :: successful ws (w.apply fs) else successful ws (w.apply fs)

/-- The content of the last write to a location that succeeds. -/
def lastContent? (ws : List UnitWrite) (fs : Files) (base loc : List String) : Option String :=
  ((successful ws fs).reverse.find? fun w => base ++ w.path.names = loc).map (·.unit.content)

theorem fileAt_apply (hbase : fs.Reaches false [] base) (w : UnitWrite) (loc : List String) :
    (w.apply fs).fileAt loc =
      if w.Succeeds fs ∧ base ++ w.path.names = loc then some w.unit.content.toUTF8 else fs.fileAt loc := by
  by_cases hw : w.Succeeds fs
  · have hfilled := filled_of_succeeds hbase hw
    by_cases hloc : base ++ w.path.names = loc
    · rw [if_pos ⟨hw, hloc⟩, ← hloc, hfilled.file]
    · rw [if_neg fun h => hloc h.2, hfilled.others loc (Ne.symm hloc)]
  · rw [if_neg fun h => hw h.1, sameFiles_of_not_succeeds hw]

theorem lastContent?_cons (w : UnitWrite) (ws : List UnitWrite) (fs : Files) (base loc : List String) :
    lastContent? (w :: ws) fs base loc = (lastContent? ws (w.apply fs) base loc).or
      (if w.Succeeds fs ∧ base ++ w.path.names = loc then some w.unit.content else none) := by
  unfold lastContent?
  rw [successful]
  by_cases hw : w.Succeeds fs
  · rw [if_pos hw, List.reverse_cons, List.find?_append, Option.map_or]
    by_cases hloc : base ++ w.path.names = loc <;> simp [hw, hloc]
  · simp [hw]

theorem fileAt_applyAll (hbase : fs.Reaches false [] base) (ws : List UnitWrite) (loc : List String) :
    (applyAll ws fs).fileAt loc = ((lastContent? ws fs base loc).map String.toUTF8).or (fs.fileAt loc) := by
  induction ws generalizing fs with
  | nil => rfl
  | cons w ws ih =>
    have hrest := ih (w.apply_reaches hbase)
    rw [fileAt_apply hbase] at hrest
    rw [applyAll, List.foldl_cons, ← applyAll, hrest, lastContent?_cons, Option.map_or, Option.or_assoc]
    congr 1
    split <;> rfl

/-- A write to a path of ordinary names succeeds if and only if a file can have such a name, no file is on the way
and no directory at its end. Then the file there has the content of the unit, and whether or not it succeeds every
other file stays as it is. After many writes, each file has the content of the last one to it that succeeded. -/
theorem changes_one_file (hbase : fs.Reaches false [] base) :
    (∀ w : UnitWrite, (w.Succeeds fs ↔ w.path.Nameable ∧ w.path.Free fs base) ∧
      (w.Succeeds fs → w.path.Filled base w.unit.content.toUTF8 fs (w.apply fs)) ∧
      (¬ w.Succeeds fs → SameFiles fs (w.apply fs))) ∧
    ∀ (ws : List UnitWrite) (loc : List String),
      (applyAll ws fs).fileAt loc = ((lastContent? ws fs base loc).map String.toUTF8).or (fs.fileAt loc) := by
  refine ⟨fun w => ⟨succeeds_iff hbase, ?_, ?_⟩, fileAt_applyAll hbase⟩
  · exact filled_of_succeeds hbase
  · exact sameFiles_of_not_succeeds

def toProgram (content : String) : UnitWrite where
  path := ⟨["out", "Program.cs"], by decide, by decide, by decide, by decide⟩
  unit := ⟨"Program.cs", content⟩

def toDirectory : UnitWrite where
  path := ⟨["out"], by decide, by decide, by decide, by decide⟩
  unit := ⟨"Program.cs", ""⟩

theorem reaches_empty : Files.empty.Reaches false [] ["", ""] :=
  ⟨_, _, _, rfl, rfl, rfl⟩

theorem changes_one_file_overlapping :
    (toProgram "a").path.Filled ["", ""] "a".toUTF8 .empty ((toProgram "a").apply .empty) ∧
      SameFiles ((toProgram "a").apply .empty) (toDirectory.apply ((toProgram "a").apply .empty)) ∧
      (applyAll [toProgram "a", toDirectory, toProgram "b", toDirectory] .empty).fileAt
        ["", "", "out", "Program.cs"] = some "b".toUTF8 := by
  have hfirst : (toProgram "a").Succeeds .empty := by decide +kernel
  have hsecond : ¬ toDirectory.Succeeds ((toProgram "a").apply .empty) := by decide +kernel
  have hbase : ((toProgram "a").apply .empty).Reaches false [] ["", ""] := apply_reaches _ reaches_empty
  refine ⟨((changes_one_file reaches_empty).1 _).2.1 hfirst, ((changes_one_file hbase).1 _).2.2 hsecond, ?_⟩
  have hlast : lastContent? [toProgram "a", toDirectory, toProgram "b", toDirectory] .empty ["", ""]
      ["", "", "out", "Program.cs"] = some "b" := by
    decide +kernel
  rw [(changes_one_file reaches_empty).2, hlast]
  rfl

def toNul : UnitWrite where
  path := ⟨["a\x00b"], by decide, by decide, by decide, by decide⟩
  unit := ⟨"u.cs", "x"⟩

/-- Nothing is in the way of a name with a character that no file can have in its name, and yet
it is not written. -/
theorem nul_refused : ¬ ∀ (fs : Files) (base : List String) (w : UnitWrite), fs.Reaches false [] base →
    (w.Succeeds fs ↔ w.path.Free fs base) := by
  intro h
  have hfree : toNul.path.Free .empty ["", ""] := by
    refine ⟨fun q hq hne => ?_, by decide +kernel⟩
    obtain hnil | ⟨rest, heq, hrest⟩ := List.prefix_cons_iff.mp hq
    · rw [hnil]
      rfl
    · rw [heq, List.prefix_nil.mp hrest] at hne
      exact absurd rfl hne
  have hfails : ¬ toNul.Succeeds .empty := by decide +kernel
  exact hfails ((h _ _ _ reaches_empty).mpr hfree)

end UnitWrite

end SharpTree
