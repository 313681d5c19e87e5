/-
LuaLayout.Proofs.Session.Answers — renderers answer as sessions do.

One level of nesting more on both sides gives the rules for the next, so the methods
for any depth follow the parsers for it. Then `answer` gives what `perform` gives, to
every request and from every session. A field in brackets is told from the first token
of its index, which is why it is shown first that what is read begins with the leaf
that is ahead.
-/
import LuaLayout.Proofs.Session.StatementAgreement

namespace LuaLayout

namespace Renderer

variable {ahead : List Leaf} {r : Rules} {q : LuaLayout.Rules}

/-! ## 1. First leaves -/

/-- Whatever the parser gives has the property. -/
def Gives {α : Type} (P : α → Prop) (p : Parser α) : Prop :=
  ∀ ahead a rest, p ahead = .ok (a, rest) → P a

namespace Gives

variable {α β : Type} {P : α → Prop} {p p' : Parser α}

theorem bind {p : Parser β} {f : β → Parser α} (h : ∀ b, Gives P (f b)) : Gives P (p >>= f) := by
  intro ahead a rest hread
  obtain ⟨b, later, -, hf⟩ := Parser.bind_eq_ok_iff.1 hread
  exact h b later a rest hf

theorem pure {a : α} (h : P a) : Gives P (pure a) := by
  intro ahead b rest hread
  obtain ⟨rfl, -⟩ := Parser.pure_eq_ok_iff.1 hread
  exact h

theorem ite {c : Prop} [Decidable c] (hp : Gives P p) (hp' : Gives P p') :
    Gives P (if c then p else p') := by
  split
  · exact hp
  · exact hp'

end Gives

/-- What begins with the leaf that is taken first. -/
theorem gives_of_next {α : Type} {P : α → Prop} {f : Leaf → Parser α} {l : Leaf}
    {ahead rest : List Leaf} {a : α} (h : Gives P (f l))
    (hread : (Parser.next >>= f) (l :: ahead) = .ok (a, rest)) : P a := by
  obtain ⟨m, later, hm, hf⟩ := Parser.bind_eq_ok_iff.1 hread
  cases Parser.next_eq_ok_iff.1 hm
  exact h ahead a rest hf

theorem table_head {l : Leaf} {ahead rest : List Leaf} {t : Table}
    (hread : Parser.table q (l :: ahead) = .ok (t, rest)) : t.head = l := by
  obtain ⟨opening, later, hopening, hread⟩ := Parser.bind_eq_ok_iff.1 hread
  cases (Parser.expect_eq_ok_iff.1 hopening).1
  refine Gives.bind (P := fun t : Table => t.head = l) (fun _ => ?_) _ _ _ hread
  exact .ite (.bind fun _ => .pure rfl) (.bind fun _ => .bind fun _ => .bind fun _ =>
    .ite (.bind fun _ => .bind fun _ => .pure rfl) (.bind fun _ => .bind fun _ => .pure rfl))

theorem access_head {l : Leaf} {ahead rest : List Leaf} {path : Access}
    (hread : Parser.access q (l :: ahead) = .ok (path, rest)) : path.head = l := by
  obtain ⟨root, later, hroot, hread⟩ := Parser.bind_eq_ok_iff.1 hread
  obtain ⟨suffixes, _, -, hread⟩ := Parser.bind_eq_ok_iff.1 hread
  obtain ⟨rfl, -⟩ := Parser.pure_eq_ok_iff.1 hread
  rw [Parser.root, Parser.current_bind, Parser.tokenAt_zero_cons] at hroot
  simp only [Parser.ite_apply] at hroot
  split at hroot
  · refine gives_of_next (P := fun root => (Access.mk root suffixes).head = l) ?_ hroot
    exact .bind fun _ => .bind fun _ => .pure rfl
  · split at hroot
    · refine gives_of_next (P := fun root => (Access.mk root suffixes).head = l) ?_ hroot
      exact .pure rfl
    · cases hroot

theorem simple_head {l : Leaf} {ahead rest : List Leaf} {o : Operand}
    (hread : Parser.simple q (l :: ahead) = .ok (o, rest)) : o.head = l := by
  rw [Parser.simple, Parser.current_bind, Parser.tokenAt_zero_cons] at hread
  simp only [Parser.ite_apply] at hread
  split at hread
  · refine gives_of_next (P := fun o : Operand => o.head = l) ?_ hread
    exact .pure rfl
  · split at hread
    · obtain ⟨t, _, ht, hread⟩ := Parser.bind_eq_ok_iff.1 hread
      obtain ⟨rfl, -⟩ := Parser.pure_eq_ok_iff.1 hread
      exact table_head ht
    · split at hread
      · refine gives_of_next (P := fun o : Operand => o.head = l) ?_ hread
        exact .bind fun _ => .pure rfl
      · obtain ⟨path, _, hpath, hread⟩ := Parser.bind_eq_ok_iff.1 hread
        obtain ⟨rfl, -⟩ := Parser.pure_eq_ok_iff.1 hread
        exact access_head hpath

/-- An expression begins with the leaf that is ahead. -/
theorem expression_head {limit : Int} {rest : List Leaf} {e : Expr}
    (hread : Parser.expression q limit ahead = .ok (e, rest)) :
    Parser.tokenAt 0 ahead = some e.head.token := by
  obtain ⟨o, _, ho, hread⟩ := Parser.bind_eq_ok_iff.1 hread
  obtain ⟨operations, _, -, hread⟩ := Parser.bind_eq_ok_iff.1 hread
  obtain ⟨rfl, -⟩ := Parser.pure_eq_ok_iff.1 hread
  cases ahead with
  | nil => cases ho
  | cons l ahead =>
    rw [Parser.operand, Parser.current_bind, Parser.tokenAt_zero_cons] at ho
    simp only [Parser.ite_apply] at ho
    have hhead : o.head = l := by
      split at ho
      · refine gives_of_next (P := fun o : Operand => o.head = l) ?_ ho
        exact .bind fun _ => .pure rfl
      · exact simple_head ho
    rw [Expr.head, hhead]
    rfl

/-! ## 2. Requests -/

theorem agrees_ofDepth (blocks : Bool) (depth : Nat) :
    (Rules.ofDepth blocks depth).Agrees (LuaLayout.Rules.ofDepth blocks depth) := by
  induction depth with
  | zero => exact ⟨fun _ _ _ _ _ => .refuse, fun _ _ _ _ => .refuse, nofun⟩
  | succ depth ih =>
    refine ⟨expression_draws ih, fun indent => ?_, fun limit ahead e rest => expression_head⟩
    cases blocks with
    | true => exact block_draws ih indent
    | false => exact fun _ _ _ => .refuse

theorem agrees_forSession (s : Session) : (Rules.forSession s).Agrees s.rules :=
  agrees_ofDepth s.style.blocks (s.ahead.length + 1)

/-- What is drawn is rendered, and the answer made of it is given. -/
theorem result_reply {α β γ : Type} {w : Renderer β} {p : Parser α} {value : α → β}
    {items : Bool → α → List Item} (h : Draws w p value items) (f : β → γ) (s : Session) :
    ((w >>= fun b => pure (f b)).run s).result =
      (s.render p (items s.style.groups) >>= fun x => pure (f (value x.1), x.2)) := by
  have hmatch := h s s.ahead s.page
  unfold Matches at hmatch
  rw [run_bind, result_andThen, hmatch]
  unfold Session.render StateT.run
  cases p s.ahead with
  | ok x => rfl
  | error failure => rfl

theorem result_openIndex (s : Session) :
    ((openIndex >>= fun apart => pure (Reply.text (if apart then " ]" else "]"))).run s).result =
      .ok s.openIndex := by
  have hmatch : Matches s s.ahead s.page
      (openIndex >>= fun apart => pure (Reply.text (if apart then " ]" else "]"))) (pure ())
      (fun _ => s.openIndex.1) (fun _ => s.openIndex.2.page) := by
    refine .openIndex fun apart hapart => ?_
    subst hapart
    exact .pure rfl rfl
  exact hmatch

theorem result_format (s : Session) :
    ((format (Rules.forSession s)).run s).result = s.format := by
  have hblock := (agrees_forSession s).block 0 s s.ahead s.page
  unfold Matches at hblock
  unfold format Session.format Session.render StateT.run
  rw [result_call, run_bind, result_andThen, hblock]
  cases s.rules.block s.ahead with
  | error failure => rfl
  | ok x =>
    obtain ⟨b, ahead⟩ := x
    cases ahead with
    | nil => rfl
    | cons l rest => rfl

theorem result_declaring {w : Renderer Bool} {p : Parser Stat} {indent : Int}
    (h : Draws w p Stat.declaresFunction fun groups stat => stat.layout groups indent)
    (s : Session) : ((declaring w).run s).result = s.renderStatement p indent :=
  result_reply h (fun b => if b then Reply.flag true else .nothing) s

theorem result_silently {α : Type} {w : Renderer Unit} {p : Parser α}
    {items : Bool → α → List Item} (h : Draws w p (fun _ => ()) items) (s : Session) :
    ((silently w).run s).result = s.renderSilently p (items s.style.groups) :=
  result_reply h (fun _ => Reply.nothing) s

theorem text_markedOf (n : LocalName) : (markedOf n).text = n.text := by
  obtain ⟨name, mark⟩ := n
  cases mark with
  | none => rfl
  | some m => rfl

/-- Renderers answer every request as sessions do. -/
theorem result_answer (s : Session) (request : Request) :
    ((answer request).run s).result = s.perform request := by
  have h := agrees_forSession s
  show ((answerWith (Rules.forSession s) request).run s).result = _
  cases request with
  | current => rfl
  | peek offset => rfl
  | check text offset => rfl
  | next => exact result_reply next_draws Reply.token s
  | expect text => exact result_reply (expect_draws text) Reply.token s
  | expectName => exact result_reply expectName_draws Reply.text s
  | complain message => rfl
  | closeBlock indent word => exact result_silently (closeBlock_draws indent word) s
  | expression indent limit => exact result_silently (h.expression indent limit) s
  | expressions indent => exact result_silently (expressions_draws h indent) s
  | operand indent => exact result_silently (operand_draws h indent) s
  | access indent => exact result_reply (access_draws h indent) (fun kind => Reply.text kind.label) s
  | openIndex => exact result_openIndex s
  | parameters => exact result_silently parameters_draws s
  | body indent => exact result_silently (body_draws h indent) s
  | table indent => exact result_silently (table_draws h indent) s
  | field indent => exact result_silently (field_draws h indent) s
  | block indent => exact result_silently (h.block indent) s
  | statement indent => exact result_declaring (statement_draws h indent) s
  | statementOf form indent => exact result_declaring (statementOf_draws h indent form) s
  | assignmentOrCall indent => exact result_declaring (assignmentOrCall_draws h indent) s
  | localName =>
    have hreply := result_reply localName_draws (fun n => Reply.text n.text) s
    simp only [text_markedOf] at hreply
    exact hreply
  | format =>
    show ((format (Rules.forSession s) >>= fun text => pure (Reply.text text)).run s).result = _
    rw [run_bind, result_andThen, result_format]
    unfold Session.perform
    cases s.format with
    | error fault => rfl
    | ok x => rfl

end Renderer

end LuaLayout
