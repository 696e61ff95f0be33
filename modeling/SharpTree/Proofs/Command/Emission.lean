import SharpTree.Command.Run
import SharpTree.Proofs.Files.Opening

/-!
# Emission of a tree

Emission does everything or nothing: either the whole program is printed or
written to a file, or the command fails, prints nothing and leaves all files as
they are (`emit_all_or_nothing`).
-/

namespace SharpTree

/-- The file that the path names holds a text of the tree. -/
def Files.HoldsTree (fs : Files) (path : String) (n : Node) : Prop :=
  ∃ text : String, fs.read? path = some text.toUTF8 ∧ Node.parse text = .ok n

theorem fromUTF8?_eq_some {bytes : ByteArray} {text : String} :
    String.fromUTF8? bytes = some text ↔ bytes = text.toUTF8 := by
  unfold String.fromUTF8?
  constructor
  · intro h
    split at h
    · cases h
      rfl
    · cases h
  · rintro rfl
    exact dif_pos text.isValidUTF8

theorem mapError_eq_ok {ε δ α : Type} {x : Except ε α} {f : ε → δ} {a : α} : x.mapError f = .ok a ↔ x = .ok a := by
  cases x with
  | error e => exact ⟨fun h => (nomatch h), fun h => (nomatch h)⟩
  | ok b =>
    constructor
    · intro h
      cases h
      rfl
    · intro h
      cases h
      rfl

theorem Parser.decode_json (path text : String) :
    (Parser.json.decode path text.toUTF8).result = (Node.parse text).mapError (.parse path) := by
  unfold Parser.decode Parser.json
  rw [fromUTF8?_eq_some.mpr rfl]
  cases h : Node.parse text <;> simp only [h] <;> rfl

theorem Parser.load_json_eq_ok {fs : Files} {path : String} {n : Node} :
    (Parser.json.load fs path).result = .ok n ↔ fs.HoldsTree path n := by
  unfold Parser.load
  constructor
  · intro h
    split at h
    · cases h
    rename_i bytes hread
    cases htext : String.fromUTF8? bytes with
    | none =>
      unfold Parser.decode at h
      rw [htext] at h
      cases h
    | some text =>
      obtain rfl := fromUTF8?_eq_some.mp htext
      rw [Parser.decode_json, mapError_eq_ok] at h
      exact ⟨text, hread, h⟩
  · rintro ⟨text, hread, hn⟩
    simp only [hread]
    rw [Parser.decode_json, mapError_eq_ok, hn]

namespace Command

variable {color directive : Bool} {fs : Files} {tree name : String} {output : Option String} {n : Node}

/-- A text that a directive can name a source by. -/
def Nameable (name : String) : Prop :=
  name ≠ "" ∧ ∀ c ∈ name.toList, c ≠ '"' ∧ c ≠ '\n' ∧ c ≠ '\r'

def program (directive : Bool) (name : String) (n : Node) : String :=
  (if directive then "#line 1 \"" ++ name ++ "\"\n" else "") ++ n.render

/-- All that emission needs: a tree, a source that can be named, and a file that can be opened. -/
structure Ready (fs : Files) (tree : String) (output : Option String) (directive : Bool) (name : String)
    (n : Node) : Prop where
  holds : fs.HoldsTree tree n
  nameable : directive = true → Nameable name
  openable : ∀ path ∈ output, fs.Openable path

/-- A text has been delivered: it is all that has been printed, or else all that the output file holds. -/
def Delivered (fs : Files) (output : Option String) (text : String) (result : Files × Outcome) : Prop :=
  match output with
  | none => result.2.stdout = text ∧ result.1 = fs
  | some path => result.2.stdout = "" ∧ fs.Wrote result.1 path text.toUTF8

theorem isSourceName_iff : isSourceName name = true ↔ Nameable name := by
  simp [isSourceName, Nameable, and_assoc]

theorem plan_of_named (tree : String) (n : Node) (h : directive = true → Nameable name) :
    plan tree directive name (.ok n) =
      .ok (n, ⟨unitFileName tree Generator.extension, program directive name n⟩) := by
  unfold plan generatorFor
  cases directive with
  | false => rfl
  | true =>
    unfold Generator.withDirective
    rw [dif_pos (isSourceName_iff.mpr (h rfl))]
    rfl

theorem plan_of_not_nameable (tree : String) (n : Node) (h : ¬ (directive = true → Nameable name)) :
    ∃ reason, plan tree directive name (.ok n) = .error (.sourceName reason) := by
  obtain ⟨rfl, hname⟩ := Classical.not_imp.mp h
  unfold plan generatorFor Generator.withDirective
  rw [if_pos rfl, dif_neg (fun hvalid => hname (isSourceName_iff.mp hvalid))]
  exact ⟨_, rfl⟩

theorem plan_of_unnamed {loaded : Except LoadError Node}
    (h : ∀ n, loaded = .ok n → ¬ (directive = true → Nameable name)) :
    ∃ f, plan tree directive name loaded = .error f := by
  cases loaded with
  | error e => exact ⟨.load tree e, rfl⟩
  | ok n =>
    obtain ⟨reason, hplan⟩ := plan_of_not_nameable tree n (h n rfl)
    exact ⟨_, hplan⟩

theorem emit_some {path : String} {u : CodeUnit} {w : Files × Except FileError Unit}
    (hplan : plan tree directive name (Parser.json.load fs tree).result = .ok (n, u))
    (hw : fs.write path u.content.toUTF8 = w) :
    emit color fs tree (some path) directive name = (w.1, match w.2 with
      | .ok () => writtenOutcome color n u path
      | .error e => (Failure.write path (.file e)).outcome color) := by
  unfold emit CodeUnit.write
  simp only [hplan, hw]
  obtain ⟨fs', _ | _⟩ := w <;> rfl

theorem emit_of_ready (color : Bool) (h : Ready fs tree output directive name n) :
    (emit color fs tree output directive name).2.status = 0 ∧
      Delivered fs output (program directive name n) (emit color fs tree output directive name) := by
  have hplan := plan_of_named tree n h.nameable
  rw [← Parser.load_json_eq_ok.mpr h.holds] at hplan
  cases output with
  | none =>
    unfold emit
    rw [hplan]
    exact ⟨rfl, rfl, rfl⟩
  | some path =>
    have hpath : fs.Writable path := Files.writable_iff_openable.mpr (h.openable path rfl)
    obtain ⟨hok, hwrote⟩ := Files.write_of_writable hpath (program directive name n).toUTF8
    simp only [emit_some hplan rfl, hok]
    exact ⟨rfl, rfl, hwrote⟩

theorem emit_of_not_ready (color : Bool) (h : ∀ n, ¬ Ready fs tree output directive name n) :
    (emit color fs tree output directive name).2.status = 1 ∧
      (emit color fs tree output directive name).2.stdout = "" ∧
      fs.SameFiles (emit color fs tree output directive name).1 := by
  by_cases hn : ∃ n, fs.HoldsTree tree n ∧ (directive = true → Nameable name)
  · obtain ⟨n, hholds, hname⟩ := hn
    have hplan := plan_of_named tree n hname
    rw [← Parser.load_json_eq_ok.mpr hholds] at hplan
    cases output with
    | none => exact absurd ⟨hholds, hname, by simp⟩ (h n)
    | some path =>
      have hpath : ¬ fs.Writable path := fun hw =>
        h n ⟨hholds, hname, by simpa using Files.writable_iff_openable.mp hw⟩
      obtain ⟨e, he, hsame⟩ := Files.write_of_not_writable hpath (program directive name n).toUTF8
      simp only [emit_some hplan rfl, he]
      exact ⟨rfl, rfl, hsame⟩
  · obtain ⟨f, hf⟩ : ∃ f, plan tree directive name (Parser.json.load fs tree).result = .error f :=
      plan_of_unnamed fun n hload hname => hn ⟨n, Parser.load_json_eq_ok.mp hload, hname⟩
    unfold emit
    rw [hf]
    exact ⟨rfl, rfl, .refl fs⟩

/-- Emission delivers the whole program, exactly if the tree can be read, its source named and the output opened.
Otherwise it prints nothing and leaves every file as it was. -/
theorem emit_all_or_nothing (color : Bool) (fs : Files) (tree : String) (output : Option String) (directive : Bool)
    (name : String) :
    ((emit color fs tree output directive name).2.status = 0 ↔ ∃ n, Ready fs tree output directive name n) ∧
      (∀ n, Ready fs tree output directive name n →
        Delivered fs output (program directive name n) (emit color fs tree output directive name)) ∧
      ((¬ ∃ n, Ready fs tree output directive name n) →
        (emit color fs tree output directive name).2.status = 1 ∧
          (emit color fs tree output directive name).2.stdout = "" ∧
          fs.SameFiles (emit color fs tree output directive name).1) ∧
      (directive = false → ∀ other,
        emit color fs tree output directive other = emit color fs tree output directive name) := by
  refine ⟨⟨fun h => ?_, fun ⟨n, hn⟩ => (emit_of_ready color hn).1⟩, fun n hn => (emit_of_ready color hn).2,
    fun h => emit_of_not_ready color fun n hn => h ⟨n, hn⟩, fun h other => ?_⟩
  · refine Classical.byContradiction fun hn => ?_
    rw [(emit_of_not_ready color fun n hready => hn ⟨n, hready⟩).1] at h
    cases h
  · subst h
    rfl

end Command

end SharpTree
