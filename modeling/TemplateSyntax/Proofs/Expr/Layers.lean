import TemplateSyntax.Expr.Chain

/-!
# Layered trees

A chain of operands and operators is the reading of many trees. In a layered tree operators bind tighter further down:
those on the left of an operator at least as tightly, those on its right more tightly, and the other way round for an
assignment. Every chain is the reading of just one layered tree (`exists_layered`, `Layered.ext`), since it splits at the
operator that takes effect last in one way only (`exists_split`, `split_unique`).

Holding operands back gives the layered tree. While a part of the chain is read, what is held in front of it does not
matter (`resolve_of_layered`), and the only fault there can be is an assignment to a wrong target; of several the
rightmost is reported (`OpTree.outcome`).
-/

namespace TemplateSyntax

namespace InfixOp

/-! ### The order of operators -/

/-- An operator yields to the stronger ones, and to its equals unless it is an assignment. -/
theorem yieldsTo_iff {op held : InfixOp} :
    op.yieldsTo held = true ↔ op.strength + op.isAssign.toNat ≤ held.strength := by
  unfold yieldsTo
  cases op.isAssign with
  | true =>
    rw [if_pos rfl, decide_eq_true_eq, Bool.toNat_true]
    omega
  | false =>
    rw [if_neg Bool.false_ne_true, decide_eq_true_eq, Bool.toNat_false]
    omega

theorem yieldsTo_trans {a b c : InfixOp} (hab : a.yieldsTo b = true) (hbc : b.yieldsTo c = true) :
    a.yieldsTo c = true := by
  rw [yieldsTo_iff] at *
  omega

/-- An operator that yields to `c`, to which `a` does not yield, yields to `a` too. -/
theorem yieldsTo_of_not_yieldsTo {a b c : InfixOp} (hbc : b.yieldsTo c = true) (hac : a.yieldsTo c = false) :
    b.yieldsTo a = true := by
  rw [← Bool.not_eq_true, yieldsTo_iff] at hac
  rw [yieldsTo_iff] at *
  have hle := a.isAssign.toNat_le
  omega

theorem isAssign_of_yieldsTo {op held : InfixOp} (h : op.yieldsTo held = true) : held.isAssign = false := by
  cases held with
  | assign a => rw [not_yieldsTo_assign] at h; cases h
  | _ => rfl

/-- How strong an operator must be to come before `op` on its right side. -/
def rightStrength (op : InfixOp) : Nat :=
  if op.isAssign then op.strength else op.strength + 1

theorem yieldsTo_eq_false_iff {op held : InfixOp} :
    op.yieldsTo held = false ↔ held.rightStrength ≤ op.strength := by
  have hop := @isAssign_iff op
  have hheld := @isAssign_iff held
  have hpos := op.strength_pos
  rw [← Bool.not_eq_true, yieldsTo_iff, rightStrength]
  cases ho : op.isAssign <;> cases hh : held.isAssign <;> simp [ho, hh] at hop hheld ⊢ <;> omega

end InfixOp

namespace Expr

/-- Operations over operands. Whether an assignment has a proper target is left open. -/
inductive OpTree where
  | operand (e : Expr)
  | node (op : InfixOp) (left right : OpTree)

namespace OpTree

/-! ### The reading of a tree -/

/-- The leftmost operand. -/
def first : OpTree → Expr
  | operand e => e
  | node _ left _ => left.first

/-- The operators from left to right, each with the operand behind it. -/
def links : OpTree → List (InfixOp × Expr)
  | operand _ => []
  | node op left right => left.links ++ (op, right.first) :: right.links

/-- The tree is an operand, or its root has at least strength `n`. -/
def Binds (n : Nat) : OpTree → Prop
  | operand _ => True
  | node op _ _ => n ≤ op.strength

inductive Layered : OpTree → Prop
  | operand (e : Expr) : Layered (operand e)
  | assign {op : InfixOp} {left right : OpTree} (hop : op.isAssign = true) (hl : left.Layered) (hr : right.Layered)
      (hleft : left.Binds (op.strength + 1)) (hright : right.Binds op.strength) : Layered (node op left right)
  | other {op : InfixOp} {left right : OpTree} (hop : op.isAssign = false) (hl : left.Layered) (hr : right.Layered)
      (hleft : left.Binds op.strength) (hright : right.Binds (op.strength + 1)) : Layered (node op left right)

private theorem forall_links_node {P : InfixOp → Prop} {op : InfixOp} {left right : OpTree} :
    (∀ l ∈ (node op left right).links, P l.1) ↔ (∀ l ∈ left.links, P l.1) ∧ P op ∧ ∀ l ∈ right.links, P l.1 := by
  simp only [links, List.mem_append, List.mem_cons]
  constructor
  · exact fun h => ⟨fun l hl => h l (.inl hl), h (op, right.first) (.inr (.inl rfl)), fun l hl => h l (.inr (.inr hl))⟩
  · rintro ⟨hl, hop, hr⟩ l (hmem | rfl | hmem)
    · exact hl l hmem
    · exact hop
    · exact hr l hmem

/-- In a layered tree the root is the weakest operator. -/
theorem Layered.binds_iff {t : OpTree} (h : t.Layered) {n : Nat} : t.Binds n ↔ ∀ l ∈ t.links, n ≤ l.1.strength := by
  induction h generalizing n with
  | operand e => simp [Binds, links]
  | assign hop hl hr hleft hright ihl ihr | other hop hl hr hleft hright ihl ihr =>
    rw [ihl] at hleft
    rw [ihr] at hright
    rw [forall_links_node (P := fun op => n ≤ op.strength)]
    constructor
    · intro h
      have hroot : n ≤ _ := h
      exact ⟨fun l hl => by have := hleft l hl; omega, hroot, fun l hl => by have := hright l hl; omega⟩
    · exact fun h => h.2.1

/-- To the root of a layered tree the operators on its right do not yield, but the root yields to all on its left. -/
theorem layered_node_iff {op : InfixOp} {left right : OpTree} :
    (node op left right).Layered ↔ left.Layered ∧ right.Layered ∧ (∀ l ∈ left.links, op.yieldsTo l.1 = true) ∧
      ∀ r ∈ right.links, r.1.yieldsTo op = false := by
  simp only [InfixOp.yieldsTo_iff, InfixOp.yieldsTo_eq_false_iff, InfixOp.rightStrength]
  constructor
  · rintro (_ | ⟨hop, hl, hr, hleft, hright⟩ | ⟨hop, hl, hr, hleft, hright⟩) <;>
      rw [hl.binds_iff] at hleft <;> rw [hr.binds_iff] at hright <;> simp only [hop] <;> exact ⟨hl, hr, hleft, hright⟩
  · rintro ⟨hl, hr, hleft, hright⟩
    cases hop : op.isAssign with
    | true =>
      rw [hop] at hleft hright
      exact .assign hop hl hr (hl.binds_iff.mpr hleft) (hr.binds_iff.mpr hright)
    | false =>
      rw [hop] at hleft hright
      exact .other hop hl hr (hl.binds_iff.mpr hleft) (hr.binds_iff.mpr hright)

end OpTree

/-! ### One layered tree for every chain -/

theorem exists_split {links : List (InfixOp × Expr)} (h : links ≠ []) :
    ∃ before op second after, links = before ++ (op, second) :: after ∧
      (∀ l ∈ before, op.yieldsTo l.1 = true) ∧ ∀ r ∈ after, r.1.yieldsTo op = false := by
  induction links with
  | nil => exact absurd rfl h
  | cons link links ih =>
    obtain ⟨op₀, second₀⟩ := link
    by_cases hlinks : links = []
    · exact ⟨[], op₀, second₀, [], by rw [hlinks]; rfl, by simp, by simp⟩
    · obtain ⟨before, op, second, after, rfl, hbefore, hafter⟩ := ih hlinks
      cases hop : op.yieldsTo op₀ with
      | true =>
        refine ⟨(op₀, second₀) :: before, op, second, after, rfl, ?_, hafter⟩
        intro l hl
        rcases List.mem_cons.mp hl with rfl | hl
        · exact hop
        · exact hbefore l hl
      | false =>
        refine ⟨[], op₀, second₀, before ++ (op, second) :: after, rfl, by simp, ?_⟩
        intro r hr
        -- an operator that yields to the first one yields to `op` too, which none of them may
        rw [Bool.eq_false_iff]
        intro hyields
        rcases List.mem_append.mp hr with hr | hr
        · exact absurd (InfixOp.yieldsTo_trans (hbefore r hr) hyields) (Bool.eq_false_iff.mp hop)
        · rcases List.mem_cons.mp hr with rfl | hr
          · exact absurd hyields (Bool.eq_false_iff.mp hop)
          · exact absurd (InfixOp.yieldsTo_of_not_yieldsTo hyields hop) (Bool.eq_false_iff.mp (hafter r hr))

/-- Of two splits of one chain neither is further to the right than the other. -/
private theorem split_eq_nil {before mid after after' : List (InfixOp × Expr)} {op op' : InfixOp} {second second' : Expr}
    (hbefore : ∀ l ∈ before ++ mid, op'.yieldsTo l.1 = true) (hafter : ∀ r ∈ after, r.1.yieldsTo op = false)
    (h : (op, second) :: after = mid ++ (op', second') :: after') : mid = [] := by
  cases mid with
  | nil => rfl
  | cons link mid =>
    obtain ⟨rfl, rfl⟩ := List.cons.inj h
    have hyields : op'.yieldsTo op = true := hbefore (op, second) (by simp)
    have hnot : op'.yieldsTo op = false := hafter (op', second') (by simp)
    rw [hyields] at hnot
    cases hnot

theorem split_unique {before before' after after' : List (InfixOp × Expr)} {op op' : InfixOp} {second second' : Expr}
    (hbefore : ∀ l ∈ before, op.yieldsTo l.1 = true) (hbefore' : ∀ l ∈ before', op'.yieldsTo l.1 = true)
    (hafter : ∀ r ∈ after, r.1.yieldsTo op = false) (hafter' : ∀ r ∈ after', r.1.yieldsTo op' = false)
    (h : before ++ (op, second) :: after = before' ++ (op', second') :: after') :
    before = before' ∧ (op, second) = (op', second') ∧ after = after' := by
  rcases List.append_eq_append_iff.mp h with ⟨mid, rfl, hrest⟩ | ⟨mid, rfl, hrest⟩
  · obtain rfl := split_eq_nil hbefore' hafter hrest
    exact ⟨by simp, List.cons.inj hrest⟩
  · obtain rfl := split_eq_nil hbefore hafter' hrest
    exact ⟨by simp, List.cons.inj hrest.symm⟩

namespace OpTree

theorem exists_layered (first : Expr) (links : List (InfixOp × Expr)) :
    ∃ t : OpTree, t.first = first ∧ t.links = links ∧ t.Layered := by
  induction hn : links.length using Nat.strongRecOn generalizing first links with
  | ind n ih =>
    by_cases hlinks : links = []
    · exact ⟨operand first, rfl, hlinks.symm, .operand first⟩
    · obtain ⟨before, op, second, after, rfl, hbefore, hafter⟩ := exists_split hlinks
      -- both sides are shorter than the chain
      have hlength : before.length + after.length < n := by
        rw [← hn, List.length_append, List.length_cons]
        omega
      obtain ⟨left, rfl, rfl, hl⟩ := ih before.length (by omega) first before rfl
      obtain ⟨right, rfl, rfl, hr⟩ := ih after.length (by omega) second after rfl
      exact ⟨node op left right, rfl, rfl, layered_node_iff.mpr ⟨hl, hr, hbefore, hafter⟩⟩

/-- A layered tree is determined by its reading. -/
theorem Layered.ext {t t' : OpTree} (h : t.Layered) (h' : t'.Layered) (hfirst : t.first = t'.first)
    (hlinks : t.links = t'.links) : t = t' := by
  induction t generalizing t' with
  | operand e =>
    cases t' with
    | operand e' => exact congrArg OpTree.operand hfirst
    | node op left right => simp [links] at hlinks
  | node op left right ihl ihr =>
    cases t' with
    | operand e' => simp [links] at hlinks
    | node op' left' right' =>
      obtain ⟨hl, hr, hleft, hright⟩ := layered_node_iff.mp h
      obtain ⟨hl', hr', hleft', hright'⟩ := layered_node_iff.mp h'
      obtain ⟨hbefore, hlink, hafter⟩ := split_unique hleft hleft' hright hright' hlinks
      obtain ⟨rfl, hsecond⟩ := Prod.mk.inj hlink
      rw [ihl hl hl' hfirst hbefore, ihr hr hr' hsecond hafter]

/-! ### The expression of a tree -/

def build : OpTree → Expr
  | operand e => e
  | node op left right => .join op left.build right.build (left.build.span.upTo right.build.span)

/-- The left sides of assignments that are no variable, field or element, from left to right. -/
def wrongTargets : OpTree → List Expr
  | operand _ => []
  | node op left right =>
    left.wrongTargets ++ (if op.isAssign && !left.build.isAssignable then [left.build] else []) ++ right.wrongTargets

/-- The expression of the tree, or the fault of its rightmost wrong target. -/
def outcome (t : OpTree) : Except ExprError Expr :=
  match t.wrongTargets.getLast? with
  | none => .ok t.build
  | some target => .error ⟨.assignTarget, target.span⟩

theorem outcome_of_wrongTargets_eq_nil {t : OpTree} (h : t.wrongTargets = []) : t.outcome = .ok t.build := by
  rw [outcome, h]
  rfl

theorem outcome_eq_ok_iff {t : OpTree} {e : Expr} : t.outcome = .ok e ↔ t.wrongTargets = [] ∧ t.build = e := by
  constructor
  · intro h
    unfold outcome at h
    split at h
    · next hnone =>
      cases h
      exact ⟨List.getLast?_eq_none_iff.mp hnone, rfl⟩
    · cases h
  · rintro ⟨h, rfl⟩
    exact outcome_of_wrongTargets_eq_nil h

theorem wrongTargets_eq_nil {t : OpTree} (h : ∀ l ∈ t.links, l.1.isAssign = false) : t.wrongTargets = [] := by
  induction t with
  | operand e => rfl
  | node op left right ihl ihr =>
    obtain ⟨hl, hop, hr⟩ := (forall_links_node (P := fun op => op.isAssign = false)).mp h
    simp [wrongTargets, ihl hl, ihr hr, hop]

/-- On the left of an operator there are no assignments, so the right side fails first. -/
theorem outcome_node {op : InfixOp} {left right : OpTree} (hleft : left.wrongTargets = []) :
    (node op left right).outcome =
      match right.outcome with
      | .error e => .error e
      | .ok r => join? op left.build r := by
  cases hright : right.wrongTargets.getLast? with
  | none =>
    have hnil := List.getLast?_eq_none_iff.mp hright
    rw [outcome_of_wrongTargets_eq_nil hnil, outcome, wrongTargets, hleft, hnil]
    dsimp only
    unfold join?
    cases op.isAssign && !left.build.isAssignable <;> rfl
  | some target => simp [outcome, wrongTargets, hleft, hright, List.getLast?_append]

end OpTree

/-! ### Resolving a layered tree -/

/-- The operator does not yield to the innermost of the held ones. -/
def Withstands (op : InfixOp) : Held → Prop
  | [] => True
  | (_, held) :: _ => op.yieldsTo held = false

theorem release_of_withstands {op : InfixOp} {held : Held} (h : Withstands op held) (right : Expr) :
    release op held right = .ok (held, right) := by
  cases held with
  | nil => rfl
  | cons top held =>
    have htop : op.yieldsTo top.2 = false := h
    rw [release, if_neg (by rw [htop]; exact Bool.false_ne_true)]

/-- A held operator takes its right side as soon as something follows that yields to it. -/
theorem resolve_of_held {held : Held} {op : InfixOp} {left right : Expr} {rest : List (InfixOp × Expr)}
    (hrest : ∀ l ∈ rest.head?, l.1.yieldsTo op = true) :
    resolve ((left, op) :: held) right rest =
      match join? op left right with
      | .error e => .error e
      | .ok e => resolve held e rest := by
  cases rest with
  | nil => cases hj : join? op left right <;> simp [resolve, releaseAll, hj]
  | cons link rest =>
    have hyields : link.1.yieldsTo op = true := hrest link rfl
    cases hj : join? op left right <;> simp [resolve, release, hyields, hj]

/-- The chain `rest` comes behind the operators of `links`: it is empty, or its first operator yields to all of them. -/
def Follows (links rest : List (InfixOp × Expr)) : Prop :=
  ∀ l ∈ rest.head?, ∀ l' ∈ links, l.1.yieldsTo l'.1 = true

/-- The reading of a layered tree is resolved as if it were one operand, whatever is held before it. -/
theorem resolve_of_layered {t : OpTree} (h : t.Layered) (held : Held) {rest : List (InfixOp × Expr)}
    (hheld : ∀ l ∈ t.links, Withstands l.1 held) (hrest : Follows t.links rest) :
    resolve held t.first (t.links ++ rest) =
      match t.outcome with
      | .error e => .error e
      | .ok e => resolve held e rest := by
  induction t generalizing held rest with
  | operand e => rfl
  | node op left right ihl ihr =>
    obtain ⟨hl, hr, hbefore, hafter⟩ := OpTree.layered_node_iff.mp h
    obtain ⟨hheldLeft, hheldOp, -⟩ := (OpTree.forall_links_node (P := fun op => Withstands op held)).mp hheld
    have hnil : left.wrongTargets = [] :=
      OpTree.wrongTargets_eq_nil fun l hl => InfixOp.isAssign_of_yieldsTo (hbefore l hl)
    have hleft : resolve held left.first (left.links ++ ((op, right.first) :: (right.links ++ rest))) =
        resolve held left.build ((op, right.first) :: (right.links ++ rest)) := by
      rw [ihl hl held hheldLeft fun l hl => by cases hl; exact hbefore, OpTree.outcome_of_wrongTargets_eq_nil hnil]
    -- with the left side read, the right side is read behind it
    have hright : resolve ((left.build, op) :: held) right.first (right.links ++ rest) = _ :=
      ihr hr _ hafter fun l hl l' hl' => hrest l hl l' (by simp [OpTree.links, hl'])
    rw [OpTree.first, OpTree.links, List.append_assoc, List.cons_append, hleft, resolve,
      release_of_withstands hheldOp, OpTree.outcome_node hnil]
    refine hright.trans ?_
    cases right.outcome with
    | error e => rfl
    | ok r => exact resolve_of_held fun l hl => hrest l hl (op, right.first) (by simp [OpTree.links])

/-- The whole chain gives what its layered tree gives. -/
theorem resolve_nil_of_layered {t : OpTree} (h : t.Layered) : resolve [] t.first t.links = t.outcome := by
  have hend : Follows t.links [] := fun l hl => by cases hl
  have hresolve := resolve_of_layered h [] (fun _ _ => trivial) hend
  rw [List.append_nil] at hresolve
  rw [hresolve]
  cases t.outcome <;> rfl

end Expr

end TemplateSyntax
