import SharpTree.Proofs.CSharp.Warnings
import SharpTree.Proofs.Command.Emission

/-!
# What a check tells about emission

A check reads the same tree as emission does and fails with it. Of a tree that
can be read it reports how many nodes are of no known kind, and emission warns
of as many (`check_predicts_emit`). The check does not count modifiers of no
known meaning, so these are what is left of placeholders after a clean check
(`clean_check_placeholders`).
-/

namespace SharpTree.Command

variable {color directive dumpTree : Bool} {fs : Files} {tree name : String} {output : Option String} {n : Node}

/-! ## Failures -/

namespace Failure

def isLoad : Failure → Bool
  | load .. => true
  | _ => false

def opening : Failure → String
  | load .. => "Failed to load tree"
  | sourceName .. => "Invalid --source-name"
  | write .. => "Failed to write to"

theorem exists_message (f : Failure) : ∃ rest, f.message = f.opening ++ rest := by
  have hfirst (s t : String) (rest : List String) : ∃ u, ": ".intercalate ((s ++ t) :: rest) = s ++ u :=
    ⟨_, String.intercalate_cons_append⟩
  cases f with
  | load path reason => exact hfirst "Failed to load tree" (" '" ++ path ++ "'") _
  | sourceName reason => exact hfirst "Invalid --source-name" "" _
  | write path reason => exact hfirst "Failed to write to" (" '" ++ path ++ "'") _

theorem isLoad_eq (f : Failure) : f.isLoad = "Failed to load".toList.isPrefixOf f.message.toList := by
  obtain ⟨rest, hrest⟩ := f.exists_message
  rw [hrest, String.toList_append]
  cases f <;> simp [isLoad, opening, List.isPrefixOf]

theorem isLoad_of_outcome {f g : Failure} (h : f.outcome color = g.outcome color) : f.isLoad = g.isLoad := by
  have hstderr := congrArg Outcome.stderr h
  simp only [outcome, String.append_left_inj, String.append_right_inj] at hstderr
  rw [isLoad_eq, isLoad_eq, hstderr]

end Failure

/-! ## Emission -/

def announcement (color : Bool) (tree : String) : Option String → String
  | none => ""
  | some path => Paint.success.apply color "✓" ++ s!" Generated {unitFileName tree Generator.extension} → {path}\n"

/-- The warning about a number of nodes. There is none about no nodes. -/
def nodeWarning (color : Bool) (count : Nat) : String :=
  if count = 0 then ""
  else Paint.warning.apply color "warning:" ++ s!" {count} unsupported node(s) rendered as placeholders\n"

theorem count_inj {j k : Nat} : j.repr = k.repr ↔ j = k := by
  have hread (i : Nat) : Nat.ofDigitChars 10 i.repr.toList 0 = i := by
    rw [Nat.repr, String.toList_ofList, Nat.ofDigitChars_ten_toDigits]
  refine ⟨fun h => ?_, congrArg _⟩
  rw [← hread j, h, hread]

theorem nodeWarning_inj {j k : Nat} : nodeWarning color j = nodeWarning color k ↔ j = k := by
  refine ⟨fun h => ?_, congrArg _⟩
  have hempty (s : String) (i : Nat) :
      s ++ (" " ++ toString i ++ " unsupported node(s) rendered as placeholders\n") ≠ "" := by
    intro hs
    simp at hs
  unfold nodeWarning at h
  split at h <;> split at h
  · rename_i hj hk
    rw [hj, hk]
  · exact absurd h.symm (hempty _ k)
  · exact absurd h (hempty _ j)
  · simpa [count_inj] using h

theorem emit_of_error {reason : LoadError} (h : (Parser.json.load fs tree).result = .error reason) :
    emit color fs tree output directive name = (fs, (Failure.load tree reason).outcome color) := by
  unfold emit plan
  rw [h]
  rfl

theorem emit_of_ok (h : (Parser.json.load fs tree).result = .ok n) :
    (∃ f : Failure, f.isLoad = false ∧ (emit color fs tree output directive name).2 = f.outcome color) ∨
      (emit color fs tree output directive name).2.status = 0 ∧
        (emit color fs tree output directive name).2.stderr =
          announcement color tree output ++ nodeWarning color n.unsupportedCount := by
  by_cases hname : directive = true → Nameable name
  · have hplan := plan_of_named tree n hname
    rw [← h] at hplan
    cases output with
    | none =>
      unfold emit
      rw [hplan]
      exact .inr ⟨rfl, (String.empty_append).symm⟩
    | some path =>
      cases hw : fs.write path (program directive name n).toUTF8 with
      | mk fs' written =>
        rw [emit_some hplan hw]
        cases written with
        | error e => exact .inl ⟨.write path (.file e), rfl, rfl⟩
        | ok => exact .inr ⟨rfl, rfl⟩
  · obtain ⟨reason, hplan⟩ := plan_of_not_nameable tree n hname
    rw [← h] at hplan
    unfold emit
    rw [hplan]
    exact .inl ⟨.sourceName reason, rfl, rfl⟩

/-! ## Reports -/

def lineAfter? (label text : String) : Option String :=
  ((text.toList.splitOn '\n').find? label.toList.isPrefixOf).map fun line =>
    String.ofList (line.drop label.toList.length)

theorem splitOn_line {line : String} (after : String) (hline : '\n' ∉ line.toList) :
    (line ++ "\n" ++ after).toList.splitOn '\n' = line.toList :: after.toList.splitOn '\n' := by
  rw [String.toList_append, String.toList_append, List.append_assoc]
  exact List.splitOn_append_cons_self_of_not_mem hline _

theorem lineAfter?_here {label rest : String} (after : String) (hlabel : '\n' ∉ label.toList)
    (hrest : '\n' ∉ rest.toList) : lineAfter? label (label ++ rest ++ "\n" ++ after) = some rest := by
  have hline : '\n' ∉ (label ++ rest).toList := by simp [hlabel, hrest]
  have hstart : label.toList.isPrefixOf (label ++ rest).toList = true := by simp
  rw [lineAfter?, splitOn_line after hline, List.find?_cons_of_pos hstart]
  simp

theorem lineAfter?_skip {label line : String} (after : String) (hline : '\n' ∉ line.toList)
    (hlabel : label.toList.isPrefixOf line.toList = false) :
    lineAfter? label (line ++ "\n" ++ after) = lineAfter? label after := by
  rw [lineAfter?, lineAfter?, splitOn_line after hline, List.find?_cons_of_neg (by simp [hlabel])]

theorem newline_not_mem_toDigits (k : Nat) : '\n' ∉ Nat.toDigits 10 k := by
  intro h
  have hdigit := Nat.isDigit_of_mem_toDigits (by decide) (by decide) h
  cases hdigit

theorem report_lines (color : Bool) (n : Node) (dumpTree : Bool) : ∃ rest, report color n dumpTree =
    Paint.heading.apply color "Tree Info" ++ "\n" ++ ("  Root:        " ++ n.kind.name ++ "\n" ++
      ("  Nodes:       " ++ toString n.nodeCount ++ "\n" ++
        ("  Unsupported: " ++ toString n.unsupportedCount ++ "\n" ++ rest))) := by
  have hlines (h r k u d v : String) : h ++ ("\n  Root:        " ++ r ++ "\n  Nodes:       " ++ k ++ "\n") ++
      ("  Unsupported: " ++ u ++ "\n\n") ++ d ++ v =
      h ++ "\n" ++ ("  Root:        " ++ r ++ "\n" ++ ("  Nodes:       " ++ k ++ "\n" ++
        ("  Unsupported: " ++ u ++ "\n" ++ ("\n" ++ (d ++ v))))) := by
    rw [show "\n  Root:        " = "\n" ++ "  Root:        " from rfl,
      show "\n  Nodes:       " = "\n" ++ "  Nodes:       " from rfl, show "\n\n" = "\n" ++ "\n" from rfl]
    simp only [String.append_assoc]
  exact ⟨_, hlines _ _ _ _ _ _⟩

theorem lineAfter?_report (color : Bool) (n : Node) (dumpTree : Bool) :
    lineAfter? "  Unsupported: " (report color n dumpTree) = some (toString n.unsupportedCount) := by
  have hhead : '\n' ∉ (Paint.heading.apply color "Tree Info").toList ∧
      "  Unsupported: ".toList.isPrefixOf (Paint.heading.apply color "Tree Info").toList = false := by
    cases color <;> decide
  have hname : '\n' ∉ n.kind.name.toList := by cases n.kind <;> decide
  obtain ⟨rest, hreport⟩ := report_lines color n dumpTree
  -- the heading, the root and the number of nodes stand on the lines before
  rw [hreport, lineAfter?_skip _ hhead.1 hhead.2, lineAfter?_skip, lineAfter?_skip, lineAfter?_here]
  · decide
  · simp [newline_not_mem_toDigits]
  · simp [newline_not_mem_toDigits]
  · simp [List.isPrefixOf]
  · simp [hname]
  · simp [List.isPrefixOf]

/-! ## Predictions -/

def NotLoaded (color : Bool) (tree : String) (o : Outcome) : Prop :=
  ∃ reason, o = (Failure.load tree reason).outcome color

/-- The report of a check, the events of a rendering and the warning of every emission that succeeds give the same
number of nodes of no known kind, and the status of the check tells whether there are any. -/
structure Foretold (color : Bool) (fs : Files) (tree : String) (dumpTree : Bool) (n : Node) (k : Nat) : Prop where
  reported : ∀ j : Nat,
    lineAfter? "  Unsupported: " (check color fs tree dumpTree).stdout = some (toString j) ↔ j = k
  logged : (n.warnings.map .warned).countP Event.isUnsupported = k
  warned : ∀ output directive name, (emit color fs tree output directive name).2.status = 0 →
    ∀ j, (emit color fs tree output directive name).2.stderr =
      announcement color tree output ++ nodeWarning color j ↔ j = k
  printed : ∀ name, (emit color fs tree none false name).2.status = 0
  clean : (check color fs tree dumpTree).status = 0 ↔ k = 0

theorem load_error_iff :
    (∃ reason, (Parser.json.load fs tree).result = .error reason) ↔ ¬ ∃ n, fs.HoldsTree tree n := by
  simp only [← Parser.load_json_eq_ok]
  cases (Parser.json.load fs tree).result <;> simp

theorem check_of_error {reason : LoadError} (h : (Parser.json.load fs tree).result = .error reason) :
    check color fs tree dumpTree = (Failure.load tree reason).outcome color := by
  rw [check, h, checkOutcome]

theorem check_of_ok (h : (Parser.json.load fs tree).result = .ok n) : check color fs tree dumpTree =
    ⟨if n.unsupportedCount = 0 then 0 else 1, report color n dumpTree, ""⟩ := by
  rw [check, h, checkOutcome]

theorem notLoaded_check : NotLoaded color tree (check color fs tree dumpTree) ↔ ¬ ∃ n, fs.HoldsTree tree n := by
  refine ⟨fun ⟨reason, hreason⟩ ⟨n, hn⟩ => ?_, fun h => ?_⟩
  · -- a report is never empty
    rw [check_of_ok (Parser.load_json_eq_ok.mpr hn)] at hreason
    have hstdout := congrArg (lineAfter? "  Unsupported: ") (congrArg Outcome.stdout hreason)
    rw [lineAfter?_report] at hstdout
    cases hstdout
  · obtain ⟨reason, hload⟩ := load_error_iff.mpr h
    exact ⟨reason, check_of_error hload⟩

theorem notLoaded_emit :
    NotLoaded color tree (emit color fs tree output directive name).2 ↔ ¬ ∃ n, fs.HoldsTree tree n := by
  refine ⟨fun ⟨reason, hreason⟩ ⟨n, hn⟩ => ?_, fun h => ?_⟩
  · obtain ⟨f, hf, hemit⟩ | ⟨hstatus, -⟩ := emit_of_ok (Parser.load_json_eq_ok.mpr hn)
    · have hload := Failure.isLoad_of_outcome (hemit.symm.trans hreason)
      rw [hf] at hload
      cases hload
    · rw [hreason] at hstatus
      cases hstatus
  · obtain ⟨reason, hload⟩ := load_error_iff.mpr h
    exact ⟨reason, by rw [emit_of_error hload]⟩

theorem foretold_of_holds (h : fs.HoldsTree tree n) : Foretold color fs tree dumpTree n n.unsupportedCount := by
  have hload := Parser.load_json_eq_ok.mpr h
  refine ⟨fun j => ?_, n.countP_events, fun output directive name hstatus j => ?_, fun name => ?_, ?_⟩
  · rw [check_of_ok hload, lineAfter?_report, Option.some.injEq]
    simpa [count_inj] using eq_comm
  · obtain ⟨f, -, hemit⟩ | ⟨-, hstderr⟩ := emit_of_ok hload
    · rw [hemit] at hstatus
      cases hstatus
    · rw [hstderr, String.append_right_inj, nodeWarning_inj]
      exact eq_comm
  · have hready : Ready fs tree none false name n := ⟨h, by simp, by simp⟩
    exact (emit_of_ready color hready).1
  · rw [check_of_ok hload]
    simp

/-- A check prints and writes nothing if the tree cannot be loaded, just when emission cannot load it. Otherwise it
gives the number of nodes that an emission renders as placeholders. -/
theorem check_predicts_emit (color : Bool) (fs : Files) (tree : String) (dumpTree : Bool) :
    (run color fs (.check tree dumpTree)).1 = fs ∧
      ((¬ ∃ n, fs.HoldsTree tree n) →
        (check color fs tree dumpTree).status = 1 ∧ (check color fs tree dumpTree).stdout = "") ∧
      (NotLoaded color tree (check color fs tree dumpTree) ↔ ¬ ∃ n, fs.HoldsTree tree n) ∧
      (∀ output directive name, NotLoaded color tree (emit color fs tree output directive name).2 ↔
        ¬ ∃ n, fs.HoldsTree tree n) ∧
      ∀ n, fs.HoldsTree tree n → Foretold color fs tree dumpTree n n.unsupportedCount := by
  refine ⟨rfl, fun h => ?_, notLoaded_check, fun output directive name => notLoaded_emit,
    fun n => foretold_of_holds⟩
  obtain ⟨reason, hload⟩ := load_error_iff.mpr h
  rw [check_of_error hload]
  exact ⟨rfl, rfl⟩

/-! ## Placeholders -/

theorem Ready.of_status (h : fs.HoldsTree tree n)
    (hstatus : (emit color fs tree output directive name).2.status = 0) :
    Ready fs tree output directive name n := by
  have hready : ∃ m, Ready fs tree output directive name m := by
    refine Classical.byContradiction fun hno => ?_
    rw [(emit_of_not_ready color fun m hm => hno ⟨m, hm⟩).1] at hstatus
    cases hstatus
  obtain ⟨m, hm⟩ := hready
  -- a file holds one tree
  have hload := Parser.load_json_eq_ok.mpr hm.holds
  rw [Parser.load_json_eq_ok.mpr h] at hload
  cases hload
  exact hm

theorem placeholders_program (directive : Bool) (name : String) (n : Node) :
    placeholders (program directive name n) =
      (if directive then placeholders name else 0) + placeholders n.render := by
  cases directive with
  | false =>
    rw [program, if_neg Bool.false_ne_true, if_neg Bool.false_ne_true, String.empty_append, Nat.zero_add]
  | true =>
    have hquote : '"' ∉ placeholder.toList := by decide
    have hbreak : '\n' ∉ placeholder.toList := by decide
    have hsome : placeholder.toList ≠ [] := by decide
    have htext : (program true name n).toList =
        "#line 1 ".toList ++ '"' :: (name.toList ++ '"' :: ([] ++ '\n' :: n.render.toList)) := by
      simp [program]
    have hnone : occurrences placeholder.toList "#line 1 ".toList = 0 ∧ occurrences placeholder.toList [] = 0 := by
      decide
    rw [placeholders, htext, occurrences_append_cons hquote hsome, occurrences_append_cons hquote hsome,
      occurrences_append_cons hbreak hsome, hnone.1, hnone.2, Nat.zero_add, Nat.zero_add]
    rfl

/-- After a clean check, the placeholders in what is emitted are as many as the modifiers of no known meaning, apart
from those in the name of the source: there are none just if every modifier of the tree is known. -/
theorem clean_check_placeholders (color dumpTree : Bool) (hn : fs.HoldsTree tree n)
    (hraw : n.Everywhere fun m => ∀ s ∈ m.form.rawTexts, Starless s.toList)
    (hstatus : (emit color fs tree output directive name).2.status = 0) :
    ∃ text, Delivered fs output text (emit color fs tree output directive name) ∧
      ((check color fs tree dumpTree).status = 0 ↔
        placeholders text = (if directive then placeholders name else 0) + n.unknownModifierCount) ∧
      ((check color fs tree dumpTree).status = 0 →
        (¬ placeholder.toList <:+: text.toList ↔
          (directive = true → ¬ placeholder.toList <:+: name.toList) ∧
            n.Everywhere fun m => ∀ x ∈ m.form.modifiers, x.isKnown = true)) := by
  have hready := Ready.of_status hn hstatus
  have hcheck : (check color fs tree dumpTree).status = 0 ↔ n.unsupportedCount = 0 := (foretold_of_holds hn).clean
  have hcount := placeholders_program directive name n
  rw [(Node.clean_render hraw).2] at hcount
  refine ⟨_, (emit_of_ready color hready).2, ?_, fun hclean => ?_⟩
  · rw [hcheck, hcount]
    omega
  · rw [hcheck.mp hclean, Nat.zero_add] at hcount
    rw [← occurrences_eq_zero, ← occurrences_eq_zero, ← Node.unknownModifierCount_eq_zero]
    change placeholders _ = 0 ↔ (_ → placeholders _ = 0) ∧ _
    rw [hcount]
    cases directive <;> simp

def sealedMember : Node :=
  .mk (.member (some [.other "sealed"]) (.mk (.identifier "x")))

def sealedFiles : Files :=
  ⟨.dir [("tree.json", .file "[\"MemberDeclaration\",[\"sealed\"],[\"Identifier\",\"x\"]]".toUTF8)], []⟩

theorem holdsTree_sealed : sealedFiles.HoldsTree "tree.json" sealedMember :=
  ⟨"[\"MemberDeclaration\",[\"sealed\"],[\"Identifier\",\"x\"]]", rfl, by decide +kernel⟩

theorem starless_sealed : sealedMember.Everywhere fun m => ∀ s ∈ m.form.rawTexts, Starless s.toList := by
  simp [sealedMember, Node.everywhere_mk, Form.children, Form.rawTexts, Node.form, Starless]

/-- A clean check of a tree without stars does not exclude placeholders. -/
theorem clean_check_with_placeholder :
    ¬ ∀ (fs : Files) (tree : String) (n : Node), fs.HoldsTree tree n →
      (n.Everywhere fun m => ∀ s ∈ m.form.rawTexts, Starless s.toList) → (check false fs tree false).status = 0 →
      ∀ text, Delivered fs none text (emit false fs tree none false "") →
        ¬ placeholder.toList <:+: text.toList := by
  intro h
  have hready : Ready sealedFiles "tree.json" none false "" sealedMember := ⟨holdsTree_sealed, by simp, by simp⟩
  have hclean : (check false sealedFiles "tree.json" false).status = 0 :=
    (foretold_of_holds holdsTree_sealed).clean.mpr (by decide)
  have hnone := h sealedFiles "tree.json" sealedMember holdsTree_sealed starless_sealed hclean _
    (emit_of_ready false hready).2
  rw [← occurrences_eq_zero] at hnone
  revert hnone
  decide

theorem clean_check_placeholders_sealed :
    (check false sealedFiles "tree.json" false).status = 0 ∧
      ∃ text, Delivered sealedFiles none text (emit false sealedFiles "tree.json" none true "a.gr") ∧
        placeholders text = 1 := by
  have hclean : (check false sealedFiles "tree.json" false).status = 0 :=
    (foretold_of_holds holdsTree_sealed).clean.mpr (by decide)
  have hready : Ready sealedFiles "tree.json" none true "a.gr" sealedMember :=
    ⟨holdsTree_sealed, fun _ => by simp [Nameable], by simp⟩
  obtain ⟨text, hdelivered, hcount, -⟩ :=
    clean_check_placeholders false false holdsTree_sealed starless_sealed (emit_of_ready false hready).1
  exact ⟨hclean, text, hdelivered, (hcount.mp hclean).trans (by decide)⟩

end SharpTree.Command
