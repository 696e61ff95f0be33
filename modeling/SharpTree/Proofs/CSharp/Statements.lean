import SharpTree.Proofs.CSharp.Pieces
import SharpTree.Source.Tree

/-!
# Statements of a block and their ends

In a block of code a statement is followed by a terminator, unless it is a
conditional or a loop: these are taken to end with a body in braces. Nothing asks
whether the body is a block, so such a statement is as open as the innermost body
in it, and what comes after an open one is read as a part of it.
-/

namespace SharpTree

/-- Whether nothing that follows a text can be read as a part of its last statement. -/
def Ended (s : String) : Prop :=
  s.toList.getLast? = some ';' ∨ s.toList.getLast? = some '}'

instance (s : String) : Decidable (Ended s) :=
  inferInstanceAs (Decidable (_ ∨ _))

theorem ended_append_terminator (s : String) : Ended (s ++ ";") := by
  simp [Ended]

theorem ended_append_brace (s : String) : Ended (s ++ "\x7d") := by
  simp [Ended]

theorem not_ended_head (s : String) : ¬ Ended (s ++ ") ") := by
  simp [Ended]

theorem ended_append {s : String} (hs : ¬ Ended s) (t : String) : Ended (s ++ t) ↔ Ended t := by
  unfold Ended at *
  rw [String.toList_append, List.getLast?_append]
  cases ht : t.toList.getLast? with
  | none => simpa using hs
  | some c => rfl

namespace Node

def statement (s : Node) : String :=
  if s.closed then s.render else s.render ++ ";"

theorem render_code (body : List Node) :
    render (mk (.block .code body)) =
      "\x7b\n" ++ String.join (body.map fun s => s.statement ++ "\n") ++ "\x7d" := by
  have hline (s : Node) : statementText .code s.fragment = s.statement ++ "\n" := by
    unfold statementText statement
    rw [fragment_closed]
    cases s.closed with
    | true => rfl
    | false => exact (String.append_assoc : s.render ++ ";" ++ "\n" = _).symm
  rw [render_eq_text, Form.map, Form.text, List.map_map]
  simp only [Function.comp_def, hline]

/-- The body that a conditional or a loop ends with, through all those that it ends with itself. -/
def lastBody : Node → Node
  | mk (.conditional _ body) => body.lastBody
  | mk (.loop _ body) => body.lastBody
  | n => n

theorem ended_conditional (c body : Node) : Ended (render (mk (.conditional c body))) ↔ Ended body.render := by
  rw [render_eq_text]
  exact ended_append (not_ended_head _) _

theorem ended_loop (c body : Node) : Ended (render (mk (.loop c body))) ↔ Ended body.render := by
  rw [render_eq_text]
  exact ended_append (not_ended_head _) _

theorem ended_lastBody (s : Node) : Ended s.render ↔ Ended s.lastBody.render := by
  induction s using induct with
  | step f ih =>
    cases f with
    | conditional c body => exact (ended_conditional c body).trans (ih body (by simp [Form.children]))
    | loop c body => exact (ended_loop c body).trans (ih body (by simp [Form.children]))
    | _ => rfl

theorem ended_block (kind : BlockKind) (body : List Node) : Ended (render (mk (.block kind body))) := by
  rw [render_eq_text]
  exact ended_append_brace _

theorem ended_statement (s : Node) : Ended s.statement ↔ s.closed = false ∨ Ended s.lastBody.render := by
  unfold statement
  cases hclosed : s.closed with
  | true => simpa using ended_lastBody s
  | false => simpa using ended_append_terminator s.render

/-- A block of code is written statement by statement, and a statement is ended if and only if it has a terminator
or the innermost body in it is ended, as it is if that body is a block. -/
theorem code_statements_ended (body : List Node) :
    render (mk (.block .code body)) =
        "\x7b\n" ++ String.join (body.map fun s => s.statement ++ "\n") ++ "\x7d" ∧
      ∀ s ∈ body, (Ended s.statement ↔ s.closed = false ∨ Ended s.lastBody.render) ∧
        ((∃ kind inner, s.lastBody = mk (.block kind inner)) → Ended s.statement) := by
  refine ⟨render_code body, ?_⟩
  intro s _
  refine ⟨ended_statement s, ?_⟩
  rintro ⟨kind, inner, hbody⟩
  rw [ended_statement, hbody]
  exact .inr (ended_block kind inner)

theorem code_statements_ended_nested :
    Ended (statement (mk (.loop (mk (.identifier "a"))
      (mk (.conditional (mk (.identifier "b")) (mk (.block .decl []))))))) :=
  ((code_statements_ended [_]).2 _ List.mem_cons_self).2 ⟨.decl, [], rfl⟩

/-- The body of a conditional is of a kind that is not known, and takes in the statement after it. -/
theorem open_conditional_in_code :
    let s := mk (.conditional (mk (.identifier "a")) (mk .unsupported))
    let block := mk (.block .code [s, mk (.identifier "b")])
    (parse ("\x7b\"type\":\"Block\",\"blockType\":\"code\",\"value\":[\x7b\"type\":\"IfStatement\"," ++
        "\"condition\":\x7b\"type\":\"Identifier\",\"value\":\"a\"\x7d," ++
        "\"body\":\x7b\"type\":\"Frobnicate\"\x7d\x7d," ++
        "\x7b\"type\":\"Identifier\",\"value\":\"b\"\x7d]\x7d")).toOption = some block ∧
      block.render = "\x7b\nif (a) /* not implement */\nb;\n\x7d" ∧ ¬ Ended s.statement := by
  decide +kernel

end Node

end SharpTree
