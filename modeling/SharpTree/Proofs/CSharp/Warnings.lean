import Mathlib.Data.List.Perm.Basic
import SharpTree.Event
import SharpTree.Proofs.CSharp.Placeholders

/-!
# The warnings of a tree

A rendering does not always evaluate the parts of a node in the order of its
children, but it evaluates each of them once. So the warnings of a node are its
own and those of its children, in some order (`warnings_mk`), and there is one
for each node of no known kind (`count_warnings`).
-/

namespace SharpTree

namespace Form

variable {ν μ : Type}

def ownWarnings : Form ν → List Warning
  | typeDecl ms _ _ | function ms _ _ _ _ | member ms _ => Warning.ofModifiers ms
  | property ms _ accessors => accessors.flatMap (fun b => Warning.ofAccessor b.1) ++ Warning.ofModifiers ms
  | unsupported => [.unsupported]
  | _ => []

theorem ownWarnings_map (g : ν → μ) (f : Form ν) : (f.map g).ownWarnings = f.ownWarnings := by
  cases f with
  | property ms d accessors => simp [map, ownWarnings, List.flatMap_map]
  | _ => rfl

theorem warnings_perm (f : Form (List Warning)) : f.warnings.Perm (f.ownWarnings ++ f.children.flatten) := by
  cases f with
  | function ms result name params body =>
    rw [List.perm_iff_count]
    intro w
    cases result <;> simp [warnings, ownWarnings, children] <;> omega
  | property ms d accessors =>
    -- the keys and the bodies of the accessors are warned about in turn
    have hsplit := List.flatMap_append_perm accessors (fun b => Warning.ofAccessor b.1) Prod.snd
    rw [List.perm_iff_count] at hsplit ⊢
    intro w
    have hcount := hsplit w
    rw [List.flatMap_def (f := Prod.snd)] at hcount
    cases hv : d.value <;> simp [warnings, ownWarnings, children, hv] at hcount ⊢ <;> omega
  | call callee args =>
    simp only [warnings, ownWarnings, children, List.flatten_cons, List.nil_append]
    exact List.perm_append_comm
  | _ => simp [warnings, ownWarnings, children]

theorem count_ownWarnings [DecidableEq ν] (f : Form ν) :
    f.ownWarnings.count .unsupported = if f = .unsupported then 1 else 0 := by
  have hmodifiers (ms : Option (List Modifier)) : (Warning.ofModifiers ms).count .unsupported = 0 := by
    rw [List.count_eq_zero, Warning.ofModifiers, List.mem_flatMap]
    rintro ⟨m, -, hm⟩
    cases m <;> simp [Warning.ofModifier] at hm
  cases f with
  | property ms d accessors =>
    have haccessors : (accessors.flatMap fun b => Warning.ofAccessor b.1).count .unsupported = 0 := by
      rw [List.count_eq_zero, List.mem_flatMap]
      rintro ⟨b, -, hb⟩
      unfold Warning.ofAccessor at hb
      split at hb <;> simp at hb
    rw [ownWarnings, List.count_append, haccessors, hmodifiers]
    simp
  | typeDecl ms | function ms | member ms => simp [ownWarnings, hmodifiers]
  | unsupported => simp [ownWarnings]
  | _ => simp [ownWarnings]

end Form

namespace Node

theorem warnings_mk (f : Form Node) : (mk f).warnings.Perm (f.ownWarnings ++ f.children.flatMap warnings) := by
  have h := Form.warnings_perm (f.map warnings)
  rw [Form.ownWarnings_map, Form.children_map] at h
  unfold warnings at h ⊢
  rwa [fold_mk]

/-- There is one warning for each node of no known kind. -/
theorem count_warnings (n : Node) : n.warnings.count .unsupported = n.unsupportedCount := by
  induction n using induct with
  | step f ih =>
    have hchildren : (f.children.flatMap warnings).count .unsupported =
        (f.children.map fun c => c.warnings.count .unsupported).sum := List.countP_flatMap
    rw [(warnings_mk f).count_eq, List.count_append, Form.count_ownWarnings, hchildren, List.map_congr_left ih,
      unsupportedCount_mk]

end Node

def Event.isUnsupported (e : Event) : Bool :=
  e.level = .warn && e.message = "unsupported node, emitting placeholder"

theorem Event.isUnsupported_warned (w : Warning) : (Event.warned w).isUnsupported = (w == .unsupported) := by
  cases w with
  | unsupported => rfl
  | _ => simp [isUnsupported, message]

theorem Node.countP_events (n : Node) :
    (n.warnings.map .warned).countP Event.isUnsupported = n.unsupportedCount := by
  rw [List.countP_map, ← count_warnings, List.count]
  exact List.countP_congr fun w _ => by rw [Function.comp_apply, Event.isUnsupported_warned]

end SharpTree
