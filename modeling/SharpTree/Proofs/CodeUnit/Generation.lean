import SharpTree.Proofs.Command.Emission
import SharpTree.Proofs.Files.Path

/-!
# Generated units

The file of a unit has one name without slashes, in which only the extension
comes after a dot, so it stays in its directory, and naming the unit of a unit
changes nothing (`unitFileName_stable`). A directive takes up the first line of a
content and nothing else (`Generator.directive_boundary`).
-/

namespace SharpTree

/-! ## File names -/

def withoutDots (name : String) : String :=
  String.ofList (name.toList.map fun c => if c = '.' then '_' else c)

def IsPlain (name : String) : Prop :=
  '.' ∉ name.toList ∧ '/' ∉ name.toList

instance (name : String) : Decidable (IsPlain name) :=
  inferInstanceAs (Decidable (_ ∧ _))

theorem withoutDots_ne_empty {name : String} (h : name ≠ "") : withoutDots name ≠ "" := by
  simpa [withoutDots] using h

theorem isPlain_withoutDots {name : String} (h : '/' ∉ name.toList) : IsPlain (withoutDots name) := by
  unfold IsPlain withoutDots
  constructor
  · rw [String.toList_ofList, List.mem_map]
    rintro ⟨c, -, hc⟩
    split at hc
    · cases hc
    · rename_i hdot
      exact hdot hc
  · rw [String.toList_ofList, List.mem_map]
    rintro ⟨c, hmem, hc⟩
    split at hc
    · cases hc
    · exact h (hc ▸ hmem)

theorem withoutDots_of_isPlain {name : String} (h : IsPlain name) : withoutDots name = name := by
  have hmap : name.toList.map (fun c => if c = '.' then '_' else c) = name.toList := by
    conv => rhs; rw [← List.map_id name.toList]
    apply List.map_congr_left
    intro c hc
    simp [show c ≠ '.' from fun hdot => h.1 (hdot ▸ hc)]
  rw [withoutDots, hmap, String.ofList_toList]

theorem unitFileName_of_none {source : String} (h : (Path.ofString source).fileName? = none) (extension : String) :
    unitFileName source extension = "out" ++ "." ++ extension := by
  unfold unitFileName Path.fileStem?
  rw [h]
  rfl

theorem unitFileName_of_some {source name : String} (h : (Path.ofString source).fileName? = some name)
    (extension : String) : unitFileName source extension = withoutDots (stem name) ++ "." ++ extension := by
  unfold unitFileName Path.fileStem?
  rw [h]
  rfl

theorem exists_unitBase (source extension : String) :
    ∃ base, unitFileName source extension = base ++ "." ++ extension ∧ base ≠ "" ∧ IsPlain base := by
  cases h : (Path.ofString source).fileName? with
  | none => exact ⟨"out", unitFileName_of_none h extension, by decide, by decide⟩
  | some name =>
    obtain ⟨hne, hslash⟩ := Path.mem_names (Path.mem_names_of_fileName? h)
    refine ⟨_, unitFileName_of_some h extension, withoutDots_ne_empty (stem_ne_empty hne), ?_⟩
    exact isPlain_withoutDots fun hmem => hslash (mem_of_mem_stem hmem)

theorem unitFileName_append {name : String} (h : '/' ∉ name.toList) (hne : name ≠ "") (hdot : name ≠ ".")
    (dir extension : String) : unitFileName (dir ++ "/" ++ name) extension = unitFileName name extension := by
  unfold unitFileName Path.fileStem?
  rw [Path.fileName?_append h hne hdot]

theorem unitFileName_suffix {base suffix : String} (hbase : base ≠ "") (hplain : IsPlain base)
    (hsuffix : IsPlain suffix) (extension : String) :
    unitFileName (base ++ "." ++ suffix) extension = base ++ "." ++ extension := by
  obtain ⟨c, cs, hcs⟩ := List.exists_cons_of_ne_nil (show base.toList ≠ [] by simpa using hbase)
  -- its first character tells the name from those that are made of dots
  have hstart (other : String) (hother : other.toList.head? = some '.') : base ++ "." ++ suffix ≠ other := by
    rintro rfl
    refine hplain.1 ?_
    simp [hcs] at hother ⊢
    exact .inl hother.symm
  have hname : (Path.ofString (base ++ "." ++ suffix)).fileName? = some (base ++ "." ++ suffix) := by
    apply Path.fileName?_of_not_mem
    · simp [hplain.2, hsuffix.2]
    · simp
    · exact hstart _ rfl
    · exact hstart _ rfl
  rw [unitFileName_of_some hname, stem_append hbase hsuffix.1, withoutDots_of_isPlain hplain]

/-- The file of a unit is named by its base, which is no path, and the extension. The directory of the source does
not matter for it, a plain base is kept, and the name of a unit is the name of its own unit. -/
theorem unitFileName_stable (source extension : String) :
    (∃ base, unitFileName source extension = base ++ "." ++ extension ∧ base ≠ "" ∧
      '.' ∉ base.toList ∧ '/' ∉ base.toList) ∧
    (∀ dir name : String, '/' ∉ name.toList → name ≠ "" → name ≠ "." →
      unitFileName (dir ++ "/" ++ name) extension = unitFileName name extension) ∧
    (∀ base suffix : String, base ≠ "" → IsPlain base → IsPlain suffix →
      unitFileName (base ++ "." ++ suffix) extension = base ++ "." ++ extension) ∧
    ('.' ∉ extension.toList → '/' ∉ extension.toList →
      unitFileName (unitFileName source extension) extension = unitFileName source extension) := by
  refine ⟨exists_unitBase source extension, ?_, ?_, ?_⟩
  · intro dir name h hne hdot
    exact unitFileName_append h hne hdot dir extension
  · intro base suffix hbase hplain hsuffix
    exact unitFileName_suffix hbase hplain hsuffix extension
  · intro hdot hslash
    obtain ⟨base, hname, hbase, hplain⟩ := exists_unitBase source extension
    rw [hname, unitFileName_suffix hbase hplain ⟨hdot, hslash⟩]

theorem unitFileName_stable_hidden :
    unitFileName ("../src//." ++ "/" ++ ".shapes.circle.kusa") "cs" = "_shapes_circle.cs" ∧
    unitFileName ("shapes" ++ "." ++ "") "cs" = "shapes.cs" ∧
    unitFileName (unitFileName "src/..." "cs") "cs" = unitFileName "src/..." "cs" := by
  obtain ⟨-, hdir, hbase, hunit⟩ := unitFileName_stable "src/..." "cs"
  refine ⟨?_, ?_, ?_⟩
  · rw [hdir _ _ (by decide) (by decide) (by decide)]
    decide
  · rw [hbase _ _ (by decide) (by decide) (by decide)]
    decide
  · exact hunit (by decide) (by decide)

/-! ## Directives -/

def firstLine (text : String) : String :=
  String.ofList (text.toList.takeWhile (· ≠ '\n'))

def laterLines (text : String) : String :=
  String.ofList ((text.toList.dropWhile (· ≠ '\n')).drop 1)

theorem toList_line (line rest : String) : (line ++ "\n" ++ rest).toList = line.toList ++ '\n' :: rest.toList := by
  simp

theorem firstLine_append {line : String} (h : '\n' ∉ line.toList) (rest : String) :
    firstLine (line ++ "\n" ++ rest) = line := by
  rw [firstLine, toList_line, List.takeWhile_append_of_pos (forall_ne_of_not_mem h)]
  simp

theorem laterLines_append {line : String} (h : '\n' ∉ line.toList) (rest : String) :
    laterLines (line ++ "\n" ++ rest) = rest := by
  rw [laterLines, toList_line, List.dropWhile_append_of_pos (forall_ne_of_not_mem h)]
  simp

namespace Generator

variable {g h : Generator} {name : String}

theorem withDirective_eq_ok (hg : g.withDirective name = .ok h) :
    Command.Nameable name ∧ h.heading = "#line 1 \"" ++ name ++ "\"" ++ "\n" := by
  unfold withDirective at hg
  split at hg
  · rename_i hname
    cases hg
    refine ⟨Command.isSourceName_iff.mp hname, ?_⟩
    show "#line 1 \"" ++ name ++ "\"\n" = _
    simp [String.append_assoc]
  · cases hg

theorem withDirective_eq_error :
    g.withDirective name = .error (.invalidSourceName name) ↔ ¬ Command.Nameable name := by
  rw [← Command.isSourceName_iff]
  unfold withDirective
  split
  · rename_i hname
    simp [hname]
  · rename_i hname
    simp [hname]

theorem exists_withDirective : (∃ h, g.withDirective name = .ok h) ↔ Command.Nameable name := by
  rw [← Command.isSourceName_iff]
  unfold withDirective
  split
  · rename_i hname
    simp [hname]
  · rename_i hname
    simp [hname]

theorem not_nameable_iff :
    ¬ Command.Nameable name ↔ name = "" ∨ '"' ∈ name.toList ∨ '\n' ∈ name.toList ∨ '\r' ∈ name.toList := by
  unfold Command.Nameable
  grind

/-- The content begins with the directive as a line of its own. -/
theorem content_of_directive (hg : g.withDirective name = .ok h) (tree : Node) (source : String) :
    '\n' ∉ ("#line 1 \"" ++ name ++ "\"").toList ∧
      (h.generate tree source).result.content = "#line 1 \"" ++ name ++ "\"" ++ "\n" ++ tree.render := by
  obtain ⟨⟨-, hname⟩, hheading⟩ := withDirective_eq_ok hg
  refine ⟨?_, by rw [generate, hheading]⟩
  have : '\n' ∉ name.toList := fun hmem => (hname _ hmem).2.1 rfl
  simp [this]

/-- The first line of a content is the directive and tells the name of the source, and what is after it
is the content that is generated without a directive. So contents that are equal have the same directive
and the same text. -/
theorem directive_boundary :
    (∀ (g : Generator) (name : String),
      (g.withDirective name = .error (.invalidSourceName name) ↔
        name = "" ∨ '"' ∈ name.toList ∨ '\n' ∈ name.toList ∨ '\r' ∈ name.toList) ∧
      ((∃ h, g.withDirective name = .ok h) ↔
        ¬ (name = "" ∨ '"' ∈ name.toList ∨ '\n' ∈ name.toList ∨ '\r' ∈ name.toList))) ∧
    (∀ (g h : Generator) (name : String), g.withDirective name = .ok h → ∀ (tree : Node) (source : String),
      firstLine (h.generate tree source).result.content = "#line 1 \"" ++ name ++ "\"" ∧
        laterLines (h.generate tree source).result.content = (plain.generate tree source).result.content) ∧
    (∀ (g g' h h' : Generator) (a b : String), g.withDirective a = .ok h → g'.withDirective b = .ok h' →
      ∀ (t u : Node) (source source' : String),
        (h.generate t source).result.content = (h'.generate u source').result.content →
          a = b ∧ t.render = u.render) := by
  refine ⟨fun g name => ⟨withDirective_eq_error.trans not_nameable_iff, ?_⟩, ?_, ?_⟩
  · rw [← not_nameable_iff, Classical.not_not]
    exact exists_withDirective
  · intro g h name hg tree source
    obtain ⟨hline, hcontent⟩ := content_of_directive hg tree source
    have hplain : (plain.generate tree source).result.content = tree.render := String.empty_append
    rw [hcontent, hplain]
    exact ⟨firstLine_append hline _, laterLines_append hline _⟩
  · intro g g' h h' a b hg hg' t u source source' heq
    obtain ⟨hline, hcontent⟩ := content_of_directive hg t source
    obtain ⟨hline', hcontent'⟩ := content_of_directive hg' u source'
    rw [hcontent, hcontent'] at heq
    have hfirst := congrArg firstLine heq
    have hlater := congrArg laterLines heq
    rw [firstLine_append hline, firstLine_append hline'] at hfirst
    rw [laterLines_append hline, laterLines_append hline'] at hlater
    exact ⟨by simpa using hfirst, hlater⟩

theorem directive_boundary_dotted :
    plain.withDirective "a\nb" = .error (.invalidSourceName "a\nb") ∧
    ∃ g, plain.withDirective "[memory].gr" = .ok g ∧
      firstLine (g.generate (.mk (.identifier "a.b")) "x.kusa").result.content = "#line 1 \"[memory].gr\"" ∧
      laterLines (g.generate (.mk (.identifier "a.b")) "x.kusa").result.content = "a.b" ∧
      (Node.mk (.identifier "a.b")).render =
        (Node.mk (.access (.mk (.identifier "a")) (.mk (.identifier "b")))).render := by
  obtain ⟨hreject, hlines, hequal⟩ := directive_boundary
  have hg : plain.withDirective "[memory].gr" = .ok ⟨some ⟨"[memory].gr", by decide⟩⟩ := by rfl
  obtain ⟨hfirst, hlater⟩ := hlines _ _ _ hg (.mk (.identifier "a.b")) "x.kusa"
  refine ⟨(hreject _ _).1.mpr (by decide), _, hg, hfirst, hlater.trans (by decide), ?_⟩
  exact (hequal _ _ _ _ _ _ hg hg _ _ "x.kusa" "y.kusa" (by decide)).2

end Generator

end SharpTree
