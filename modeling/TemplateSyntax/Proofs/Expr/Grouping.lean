import TemplateSyntax.Proofs.Expr.Layers

/-!
# How a chain of operators groups

A chain of operands splits at the operator that takes effect last: to it every operator on its left has to yield, and
none on its right does. Splitting again on both sides gives the tree (`Groups`), if every assignment then has a
variable, field or element on its left. So a group is a layered tree without a wrong target (`groups_iff`), and holding
operands back, as `resolve` does, gives the same expression (`resolve_eq_ok_iff`).
-/

namespace TemplateSyntax

namespace Expr

/-- The operands `first`, and those behind operators, make the tree. -/
inductive Groups : Expr → List (InfixOp × Expr) → Expr → Prop
  | operand (e : Expr) : Groups e [] e
  | join {first second left right : Expr} {before after : List (InfixOp × Expr)} {op : InfixOp}
      (hl : Groups first before left) (hr : Groups second after right)
      (hbefore : ∀ l ∈ before, op.yieldsTo l.1 = true) (hafter : ∀ r ∈ after, r.1.yieldsTo op = false)
      (ha : op.isAssign = true → left.isAssignable = true) :
      Groups first (before ++ (op, second) :: after) (.join op left right (left.span.upTo right.span))

theorem exists_layered_of_groups {first e : Expr} {links : List (InfixOp × Expr)} (h : Groups first links e) :
    ∃ t : OpTree, t.first = first ∧ t.links = links ∧ t.Layered ∧ t.outcome = .ok e := by
  induction h with
  | operand e => exact ⟨.operand e, rfl, rfl, .operand e, rfl⟩
  | @join first second left right before after op _ _ hbefore hafter ha ihl ihr =>
    obtain ⟨l, rfl, rfl, hl, hleft⟩ := ihl
    obtain ⟨r, rfl, rfl, hr, hright⟩ := ihr
    obtain ⟨hnil, rfl⟩ := OpTree.outcome_eq_ok_iff.mp hleft
    refine ⟨.node op l r, rfl, rfl, OpTree.layered_node_iff.mpr ⟨hl, hr, hbefore, hafter⟩, ?_⟩
    rw [OpTree.outcome_node hnil, hright]
    dsimp only
    unfold join?
    cases hop : op.isAssign with
    | false => rfl
    | true => rw [ha hop]; rfl

theorem groups_of_layered {t : OpTree} (h : t.Layered) (hnil : t.wrongTargets = []) :
    Groups t.first t.links t.build := by
  induction t with
  | operand e => exact .operand e
  | node op left right ihl ihr =>
    obtain ⟨hl, hr, hbefore, hafter⟩ := OpTree.layered_node_iff.mp h
    simp only [OpTree.wrongTargets, List.append_eq_nil_iff] at hnil
    obtain ⟨⟨hleft, hop⟩, hright⟩ := hnil
    refine .join (ihl hl hleft) (ihr hr hright) hbefore hafter fun ha => ?_
    simpa [ha] using hop

theorem groups_iff {first e : Expr} {links : List (InfixOp × Expr)} :
    Groups first links e ↔ ∃ t : OpTree, t.first = first ∧ t.links = links ∧ t.Layered ∧ t.outcome = .ok e := by
  constructor
  · exact exists_layered_of_groups
  · rintro ⟨t, rfl, rfl, h, hok⟩
    obtain ⟨hnil, rfl⟩ := OpTree.outcome_eq_ok_iff.mp hok
    exact groups_of_layered h hnil

/-- Holding operands back gives the tree of the group, and an error if there is none. -/
theorem resolve_eq_ok_iff {first e : Expr} {links : List (InfixOp × Expr)} :
    resolve [] first links = .ok e ↔ Groups first links e := by
  rw [groups_iff]
  constructor
  · intro h
    obtain ⟨t, rfl, rfl, hlayered⟩ := OpTree.exists_layered first links
    exact ⟨t, rfl, rfl, hlayered, (resolve_nil_of_layered hlayered).symm.trans h⟩
  · rintro ⟨t, rfl, rfl, hlayered, hok⟩
    exact (resolve_nil_of_layered hlayered).trans hok

end Expr

end TemplateSyntax
