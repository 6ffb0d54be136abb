import TemplateSyntax.Proofs.Expr.Acceptance

/-!
# Climbing by strength, and two stacks

Two other ways of reading an expression. The first climbs: behind an operator it reads on only as long as operators are
strong enough to come first, and joins both sides at once (`climb`). The second keeps operands and operators on two
stacks and joins the operands on top as soon as a new operator yields (`stackLoop`). Both give what holding operands back
gives, down to the errors and the tokens that are left (`climbed_eq`, `stacked_eq`); in particular no stack of the second
way ever runs empty. What they give is the one layered tree of the operands and operators (`expression_layered`).
-/

namespace TemplateSyntax.Expr

/-! ### Outcomes -/

namespace Outcome

variable {α β γ : Type} {l m n : Nat}

theorem kept_of_used {rest : List Token} (h : rest.length < n) : rest.length ≤ n :=
  Nat.le_of_lt h

theorem kept_self (ts : List Token) : ts.length ≤ ts.length :=
  Nat.le_refl _

/-- The outcome that leaves `rest` in either case. -/
def ofResult (rest : List Token) (h : rest.length < n) : Except ExprError α → Outcome α n
  | .ok a => .ok a rest h
  | .error e => .error e rest (kept_of_used h)

theorem bind_bind (o : Outcome α l) (hl : l ≤ m) (hm : m ≤ n)
    (f : (a : α) → (rest : List Token) → rest.length < l → Outcome β m)
    (g : (b : β) → (rest : List Token) → rest.length < m → Outcome γ n) :
    (o.bind hl f).bind hm g = o.bind (Nat.le_trans hl hm) fun a rest used => (f a rest used).bind hm g := by
  cases o <;> rfl

theorem map_bind (o : Outcome α m) (f : α → β) (h : m ≤ n)
    (g : (b : β) → (rest : List Token) → rest.length < m → Outcome γ n) :
    (o.map f).bind h g = o.bind h fun a rest used => g (f a) rest used := by
  cases o <;> rfl

/-- Two ways to go on are the same if they are for the value that was read. -/
theorem bind_congr_of_eq {o : Outcome α m} {h : m ≤ n}
    {f g : (a : α) → (rest : List Token) → rest.length < m → Outcome β n}
    (hfg : ∀ a rest used, o = .ok a rest used → f a rest used = g a rest used) : o.bind h f = o.bind h g := by
  cases o with
  | ok a rest used => exact hfg a rest used rfl
  | error e rest kept => rfl

end Outcome

theorem exists_join? {op : InfixOp} (h : op.isAssign = false) (left right : Expr) :
    ∃ e, join? op left right = .ok e := by
  unfold join?
  rw [h]
  exact ⟨_, rfl⟩

/-- A new operator releases no assignment, so releasing cannot fail. -/
theorem exists_release (op : InfixOp) (held : Held) (right : Expr) :
    ∃ held' left, release op held right = .ok (held', left) := by
  induction held generalizing right with
  | nil => exact ⟨[], right, rfl⟩
  | cons top held ih =>
    obtain ⟨left, heldOp⟩ := top
    cases hyields : op.yieldsTo heldOp with
    | false => exact ⟨_, _, @release_of_withstands op ((left, heldOp) :: held) hyields right⟩
    | true =>
      obtain ⟨e, he⟩ := exists_join? (InfixOp.isAssign_of_yieldsTo hyields) left right
      obtain ⟨held', left', hrelease⟩ := ih e
      refine ⟨held', left', ?_⟩
      rw [release, if_pos hyields, he]
      exact hrelease

namespace Reader

open Outcome

variable {stop : Nat} {item : Reader Expr}

/-! ### The rest of a chain behind held operands -/

/-- Reads the rest of a chain whose last operand is `left`. -/
def resolved (stop : Nat) (item : Reader Expr) {n : Nat} (held : Held) (left : Expr) (ts : List Token)
    (h : ts.length < n) : Outcome Expr n :=
  (chain stop item ts h).bind (Nat.le_refl _) fun links rest h => ofResult rest h (resolve held left links)

theorem expressionOver_eq_resolved (ts : List Token) :
    expressionOver stop item ts =
      (unary stop item ts).bind (Nat.le_refl _) fun first rest h => resolved stop item [] first rest h := by
  unfold expressionOver resolved
  refine bind_congr fun first rest h => bind_congr fun links rest h => ?_
  cases resolve [] first links <;> rfl

theorem resolved_of_end {n : Nat} {held : Held} {left : Expr} {ts : List Token} {h : ts.length < n}
    (hend : ∀ t ∈ ts.head?, t.kind.infix? = none) :
    resolved stop item held left ts h = ofResult ts h (releaseAll held left) := by
  unfold resolved
  cases ts with
  | nil =>
    rw [chain]
    rfl
  | cons t ts =>
    have ht := hend t rfl
    rw [chain, ht]
    rfl

theorem resolved_of_infix? {n : Nat} {op : InfixOp} {held held' : Held} {left left' : Expr} {t : Token}
    {ts : List Token} {h : (t :: ts).length < n} (ht : t.kind.infix? = some op)
    (hrelease : release op held left = .ok (held', left')) :
    resolved stop item held left (t :: ts) h =
      if ts.isEmpty then .error ⟨.missingOperand op, t.span⟩ ts (Nat.le_of_lt (Nat.lt_of_succ_lt h))
      else
        (unary stop item ts).bind (Nat.le_of_lt (Nat.lt_of_succ_lt h)) fun e rest h' =>
          resolved stop item ((left', op) :: held') e rest (Nat.lt_trans h' (Nat.lt_of_succ_lt h)) := by
  unfold resolved
  rw [chain, ht]
  dsimp only
  split
  · rfl
  · rw [bind_bind]
    refine bind_congr fun e rest h' => ?_
    rw [map_bind]
    refine bind_congr fun links rest h'' => ?_
    rw [resolve, hrelease]

/-! ### Climbing -/

/-- Reads on behind `left` as long as there are operators of strength `least` or more. -/
def climb (stop : Nat) (item : Reader Expr) (least : Nat) {n : Nat} (left : Expr) :
    (ts : List Token) → ts.length < n → Outcome Expr n
  | [], h => .ok left [] h
  | t :: ts, h =>
    match t.kind.infix? with
    | none => .ok left (t :: ts) h
    | some op =>
      if op.strength < least then .ok left (t :: ts) h
      else if ts.isEmpty then .error ⟨.missingOperand op, t.span⟩ ts (Nat.le_of_lt (Nat.lt_of_succ_lt h))
      else
        (unary stop item ts).bind (Nat.le_of_lt (Nat.lt_of_succ_lt h)) fun first rest h' =>
          (climb stop item op.rightStrength first rest h').bind (Nat.le_of_lt (Nat.lt_of_succ_lt h))
            fun right rest h'' =>
              match join? op left right with
              | .error e => .error e rest (Nat.le_of_lt (Nat.lt_trans h'' (Nat.lt_of_succ_lt h)))
              | .ok e => climb stop item least e rest (Nat.lt_trans h'' (Nat.lt_of_succ_lt h))
termination_by ts => ts.length
decreasing_by
  · exact Nat.lt_succ_of_lt h'
  · exact Nat.lt_succ_of_lt h''

/-- An expression read by climbing. -/
def climbOver (stop : Nat) (item : Reader Expr) (ts : List Token) : Outcome Expr ts.length :=
  (unary stop item ts).bind (kept_self ts) fun first rest h => climb stop item 0 first rest h

def climbWithin (stop : Nat) : (depth : Nat) → Reader Expr
  | 0, ts => .error ⟨.unexpectedEnd, nextSpan stop ts⟩ ts (kept_self ts)
  | depth + 1, ts => climbOver stop (climbWithin stop depth) ts

/-- An expression whose parts in brackets are read by climbing too. -/
def climbed (stop : Nat) (ts : List Token) : Outcome Expr ts.length :=
  climbWithin stop ts.length ts

/-- Climbing stops at the first operator that is too weak. -/
theorem climb_stops {n least : Nat} {left e : Expr} {ts rest : List Token} {h : ts.length < n} {used : rest.length < n}
    (hclimb : climb stop item least left ts h = .ok e rest used) :
    ∀ t ∈ rest.head?, ∀ op, t.kind.infix? = some op → op.strength < least := by
  induction hn : ts.length using Nat.strongRecOn generalizing n least left ts with
  | ind k ih =>
    match ts, h with
    | [], h =>
      rw [climb] at hclimb
      cases hclimb
      simp
    | t :: ts, h =>
      rw [climb] at hclimb
      split at hclimb
      · next ht =>
        cases hclimb
        intro t' ht' op hop
        obtain rfl : t = t' := Option.some.inj ht'
        rw [ht] at hop
        cases hop
      · next op ht =>
        split at hclimb
        · next hweak =>
          cases hclimb
          intro t' ht' op' hop
          obtain rfl : t = t' := Option.some.inj ht'
          rw [ht] at hop
          cases hop
          exact hweak
        · split at hclimb
          · cases hclimb
          · obtain ⟨first, us, h', -, hfirst⟩ := yields_bind.mp (yields_iff.mpr ⟨used, hclimb⟩)
            obtain ⟨right, vs, h'', -, hright⟩ := yields_bind.mp hfirst
            split at hright
            · exact hright.elim
            · next joined hjoin =>
              obtain ⟨used', hjoined⟩ := yields_iff.mp hright
              rw [List.length_cons] at hn
              exact ih vs.length (by omega) hjoined rfl

/-- An operator held on top takes `right` where the chain ends or an operator follows that yields to it. -/
theorem resolved_of_held {n : Nat} {op : InfixOp} {held : Held} {left right : Expr} {ts : List Token}
    (h : ts.length < n) (hrest : ∀ t ∈ ts.head?, ∀ op', t.kind.infix? = some op' → op'.yieldsTo op = true) :
    resolved stop item ((left, op) :: held) right ts h =
      match join? op left right with
      | .error e => .error e ts (Nat.le_of_lt h)
      | .ok e => resolved stop item held e ts h := by
  cases hend : ts.head?.bind fun t => t.kind.infix? with
  | none =>
    have hend : ∀ t ∈ ts.head?, t.kind.infix? = none := by simpa [Option.bind_eq_none_iff] using hend
    rw [resolved_of_end hend, releaseAll]
    cases join? op left right with
    | error e => rfl
    | ok e => exact (resolved_of_end hend).symm
  | some op' =>
    obtain ⟨t, ht, hop⟩ := Option.bind_eq_some_iff.mp hend
    have hyields := hrest t ht op' hop
    obtain ⟨e, he⟩ := exists_join? (InfixOp.isAssign_of_yieldsTo hyields) left right
    obtain ⟨held', left', hrelease⟩ := exists_release op' held e
    obtain ⟨us, rfl⟩ := List.head?_eq_some_iff.mp ht
    have hheld : release op' ((left, op) :: held) right = .ok (held', left') := by
      rw [release, if_pos hyields, he]
      exact hrelease
    rw [he, resolved_of_infix? hop hheld]
    exact (resolved_of_infix? hop hrelease).symm

/-- Climbing reads the part of the chain that comes before the held operators take effect. -/
theorem resolved_eq_climb {m n least : Nat} {held : Held} (hleast : ∀ op, Withstands op held ↔ least ≤ op.strength)
    (left : Expr) {ts : List Token} (hm : ts.length < m) (hmn : m ≤ n) :
    resolved stop item held left ts (Nat.lt_of_lt_of_le hm hmn) =
      (climb stop item least left ts hm).bind hmn fun e rest h =>
        resolved stop item held e rest (Nat.lt_of_lt_of_le h hmn) := by
  match ts, hm with
  | [], hm =>
    rw [climb]
    rfl
  | t :: ts, hm =>
    rw [climb]
    cases ht : t.kind.infix? with
    | none => rfl
    | some op =>
      dsimp only
      by_cases hweak : op.strength < least
      · rw [if_pos hweak]
        rfl
      · rw [if_neg hweak]
        have hop : Withstands op held := (hleast op).mpr (Nat.le_of_not_lt hweak)
        rw [resolved_of_infix? ht (release_of_withstands hop left)]
        split
        · rfl
        · rw [bind_bind]
          refine bind_congr fun first us h' => ?_
          have hus : us.length < (t :: ts).length := Nat.lt_succ_of_lt h'
          have hle : ts.length ≤ n := Nat.le_of_lt (Nat.lt_of_succ_lt (Nat.lt_of_lt_of_le hm hmn))
          have hheld : ∀ op', Withstands op' ((left, op) :: held) ↔ op.rightStrength ≤ op'.strength :=
            fun op' => InfixOp.yieldsTo_eq_false_iff
          rw [resolved_eq_climb hheld first h' hle, bind_bind]
          refine bind_congr_of_eq fun right vs h'' hright => ?_
          have hvs : vs.length < (t :: ts).length := Nat.lt_succ_of_lt h''
          rw [resolved_of_held]
          · cases join? op left right with
            | error e => rfl
            | ok e => exact resolved_eq_climb hleast e _ hmn
          · intro t' ht' op' hop'
            have hstop := climb_stops hright t' ht' op' hop'
            rw [← Bool.not_eq_false, InfixOp.yieldsTo_eq_false_iff]
            omega
termination_by ts.length
decreasing_by
  · exact hus
  · exact hvs

theorem climbOver_eq (ts : List Token) : climbOver stop item ts = expressionOver stop item ts := by
  rw [expressionOver_eq_resolved, climbOver]
  refine bind_congr fun first rest h => ?_
  have hleast : ∀ op, Withstands op [] ↔ 0 ≤ op.strength := fun op => iff_of_true trivial (Nat.zero_le _)
  rw [resolved_eq_climb hleast first h (Nat.le_refl _)]
  cases hclimb : climb stop item 0 first rest h with
  | error => rfl
  | ok e us used =>
    -- no operator is too weak for climbing from strength 0
    have hend : ∀ t ∈ us.head?, t.kind.infix? = none := by
      intro t ht
      cases hop : t.kind.infix? with
      | none => rfl
      | some op => exact absurd (climb_stops hclimb t ht op hop) (Nat.not_lt_zero _)
    change .ok e us used = resolved stop item [] e us used
    rw [resolved_of_end hend]
    rfl

theorem climbed_eq (stop : Nat) (ts : List Token) : climbed stop ts = expression stop ts := by
  have hwithin (depth : Nat) : climbWithin stop depth = expressionWithin stop depth := by
    induction depth with
    | zero => rfl
    | succ depth ih =>
      funext us
      rw [climbWithin, expressionWithin, ih, climbOver_eq]
  rw [climbed, hwithin, expression]

/-! ### Two stacks -/

/-- Joins the two operands on top, if there are two. -/
def reduce? (op : InfixOp) : List Expr → Option (Except ExprError (List Expr))
  | right :: left :: operands => some ((join? op left right).map (· :: operands))
  | _ => none

/-- Reduces the operators to which `op` yields. -/
def reduceFor? (op : InfixOp) :
    List InfixOp → List Expr → Option (Except ExprError (List InfixOp × List Expr))
  | [], operands => some (.ok ([], operands))
  | top :: operators, operands =>
    if op.yieldsTo top then
      match reduce? top operands with
      | none => none
      | some (.error e) => some (.error e)
      | some (.ok operands) => reduceFor? op operators operands
    else some (.ok (top :: operators, operands))

/-- Reduces all operators, and takes the operand that is left. -/
def reduceAll? : List InfixOp → List Expr → Option (Except ExprError Expr)
  | [], operands => operands.head?.map .ok
  | top :: operators, operands =>
    match reduce? top operands with
    | none => none
    | some (.error e) => some (.error e)
    | some (.ok operands) => reduceAll? operators operands

/-- Reads the rest of a chain with the operators and operands so far on two stacks; `none` if a stack runs empty. -/
def stackLoop (stop : Nat) (item : Reader Expr) {n : Nat} (operators : List InfixOp) (operands : List Expr) :
    (ts : List Token) → ts.length < n → Option (Outcome Expr n)
  | [], h => (reduceAll? operators operands).map (ofResult [] h)
  | t :: ts, h =>
    match t.kind.infix? with
    | none => (reduceAll? operators operands).map (ofResult (t :: ts) h)
    | some op =>
      match reduceFor? op operators operands with
      | none => none
      | some (.error e) => some (.error e (t :: ts) (Nat.le_of_lt h))
      | some (.ok (operators, operands)) =>
        if ts.isEmpty then some (.error ⟨.missingOperand op, t.span⟩ ts (Nat.le_of_lt (Nat.lt_of_succ_lt h)))
        else
          match unary stop item ts with
          | .error e rest kept => some (.error e rest (Nat.le_trans kept (Nat.le_of_lt (Nat.lt_of_succ_lt h))))
          | .ok e rest h' =>
            stackLoop stop item (op :: operators) (e :: operands) rest (Nat.lt_trans h' (Nat.lt_of_succ_lt h))
termination_by ts => ts.length
decreasing_by exact Nat.lt_succ_of_lt h'

/-- An expression read with two stacks. -/
def stacked (stop : Nat) (item : Reader Expr) (ts : List Token) : Option (Outcome Expr ts.length) :=
  match unary stop item ts with
  | .error e rest kept => some (.error e rest kept)
  | .ok first rest h => stackLoop stop item [] [first] rest h

/-- The stacks hold the held operators, and the operand that was read last above theirs. -/
theorem reduceFor?_eq (op : InfixOp) (held : Held) (left : Expr) :
    reduceFor? op (held.map Prod.snd) (left :: held.map Prod.fst) =
      some ((release op held left).map fun p => (p.1.map Prod.snd, p.2 :: p.1.map Prod.fst)) := by
  induction held generalizing left with
  | nil => rfl
  | cons top held ih =>
    rw [List.map_cons, List.map_cons, reduceFor?, release]
    split
    · rw [reduce?]
      cases join? top.2 top.1 left with
      | error e => rfl
      | ok e => exact ih e
    · rfl

theorem reduceAll?_eq (held : Held) (left : Expr) :
    reduceAll? (held.map Prod.snd) (left :: held.map Prod.fst) = some (releaseAll held left) := by
  induction held generalizing left with
  | nil => rfl
  | cons top held ih =>
    rw [List.map_cons, List.map_cons, reduceAll?, releaseAll, reduce?]
    cases join? top.2 top.1 left with
    | error e => rfl
    | ok e => exact ih e

theorem stackLoop_eq {n : Nat} (held : Held) (left : Expr) {ts : List Token} (h : ts.length < n) :
    stackLoop stop item (held.map Prod.snd) (left :: held.map Prod.fst) ts h =
      some (resolved stop item held left ts h) := by
  induction hn : ts.length using Nat.strongRecOn generalizing held left ts with
  | ind k ih =>
    match ts, h with
    | [], h => rw [stackLoop, reduceAll?_eq, resolved_of_end (by simp), Option.map_some]
    | t :: ts, h =>
      rw [List.length_cons] at hn
      rw [stackLoop]
      cases ht : t.kind.infix? with
      | none =>
        dsimp only
        rw [reduceAll?_eq, resolved_of_end (by simpa using ht), Option.map_some]
      | some op =>
        obtain ⟨held', left', hrelease⟩ := exists_release op held left
        rw [resolved_of_infix? ht hrelease]
        dsimp only
        rw [reduceFor?_eq, hrelease]
        dsimp only [Except.map]
        split
        · rfl
        · cases unary stop item ts with
          | error => rfl
          | ok e us h' => exact ih us.length (by omega) ((left', op) :: held') e _ rfl

theorem stacked_eq (ts : List Token) : stacked stop item ts = some (expressionOver stop item ts) := by
  rw [expressionOver_eq_resolved, stacked]
  cases unary stop item ts with
  | error => rfl
  | ok first rest h => exact stackLoop_eq [] first h

/-! ### The layered tree -/

/-- Operators and operands in turn, as far as they go. -/
inductive Alternation (stop : Nat) : List Token → List (InfixOp × Expr) → List Token → Prop
  | done {rest : List Token} (h : ∀ t ∈ rest.head?, t.kind.infix? = none) : Alternation stop rest [] rest
  | step {op : InfixOp} {e : Expr} {links : List (InfixOp × Expr)} {t : Token} {ts us rest : List Token}
      (ht : t.kind.infix? = some op) (he : (unary stop (expression stop) ts).Yields e us)
      (hlinks : Alternation stop us links rest) : Alternation stop (t :: ts) ((op, e) :: links) rest

theorem Alternation.chain_yields {ts rest : List Token} {links : List (InfixOp × Expr)}
    (h : Alternation stop ts links rest) {n : Nat} (hn : ts.length < n) :
    (chain stop (expression stop) ts hn).Yields links rest := by
  induction h generalizing n with
  | done h => exact yields_endChain hn h
  | step ht he _ ih => exact yields_chain hn ht he fun m hm => ih hm

/-- Where all operands are read, everything depends on the layered tree. -/
theorem expression_eq_outcome {ts us rest : List Token} {t : OpTree}
    (hfirst : (unary stop (expression stop) ts).Yields t.first us) (hlinks : Alternation stop us t.links rest)
    (ht : t.Layered) : ∃ h, expression stop ts = ofResult rest h t.outcome := by
  obtain ⟨used, hunary⟩ := yields_iff.mp hfirst
  obtain ⟨used', hchain⟩ := yields_iff.mp (hlinks.chain_yields used)
  refine ⟨used', ?_⟩
  rw [expression_eq, expressionOver_eq_resolved, hunary]
  unfold resolved
  dsimp only [Outcome.bind]
  rw [hchain]
  dsimp only
  rw [resolve_nil_of_layered ht]

/-- An expression is read alike with two stacks, neither of which runs empty, and by climbing. Where operators and
operands stand in turn as far as they go, it is the tree of the one layered reading, unless an assignment has a wrong
target; the fault is that of the rightmost then. -/
theorem expression_layered (stop : Nat) (ts : List Token) :
    stacked stop (expression stop) ts = some (expression stop ts) ∧ climbed stop ts = expression stop ts ∧
      ∀ first us links rest, (unary stop (expression stop) ts).Yields first us → Alternation stop us links rest →
        ∃ t : OpTree, (t.first = first ∧ t.links = links ∧ t.Layered) ∧
          (∀ t' : OpTree, t'.first = first → t'.links = links → t'.Layered → t' = t) ∧
          (t.wrongTargets = [] → (expression stop ts).Yields t.build rest) ∧
          ∀ target, t.wrongTargets.getLast? = some target →
            ∃ e kept, expression stop ts = .error e rest kept ∧ e.message = "Invalid assignment target" ∧
              e.span = target.span := by
  have hstacked : stacked stop (expression stop) ts = some (expression stop ts) := by rw [stacked_eq, ← expression_eq]
  refine ⟨hstacked, climbed_eq stop ts, ?_⟩
  intro first us links rest hfirst hlinks
  obtain ⟨t, rfl, rfl, ht⟩ := OpTree.exists_layered first links
  obtain ⟨h, heq⟩ := expression_eq_outcome hfirst hlinks ht
  refine ⟨t, ⟨rfl, rfl, ht⟩, fun t' hf hl h' => h'.ext ht hf hl, ?_, ?_⟩
  · intro hnil
    rw [heq, OpTree.outcome_of_wrongTargets_eq_nil hnil]
    exact ⟨rfl, rfl⟩
  · intro target htarget
    rw [heq, OpTree.outcome, htarget]
    exact ⟨_, Nat.le_of_lt h, rfl, rfl, rfl⟩

/-- In `a = b + 1 = c` the right assignment has the sum as its target. -/
theorem expression_assign_sum :
    let a : Token := ⟨.identifier "a", "a", ⟨0, 1⟩⟩
    let set : Token := ⟨.punctuator .eq, "=", ⟨2, 3⟩⟩
    let b : Token := ⟨.identifier "b", "b", ⟨4, 5⟩⟩
    let plus : Token := ⟨.punctuator .plus, "+", ⟨6, 7⟩⟩
    let one : Token := ⟨.number default, "1", ⟨8, 9⟩⟩
    let set' : Token := ⟨.punctuator .eq, "=", ⟨10, 11⟩⟩
    let c : Token := ⟨.identifier "c", "c", ⟨12, 13⟩⟩
    let links : List (InfixOp × Expr) :=
      [(.assign .set, .identifier "b" ⟨4, 5⟩), (.binary .add, .literal (.number default) "1" ⟨8, 9⟩),
        (.assign .set, .identifier "c" ⟨12, 13⟩)]
    (unary 13 (expression 13) [a, set, b, plus, one, set', c]).Yields (.identifier "a" ⟨0, 1⟩)
        [set, b, plus, one, set', c] ∧
      Alternation 13 [set, b, plus, one, set', c] links [] ∧
      ∃ e kept, expression 13 [a, set, b, plus, one, set', c] = .error e [] kept ∧
        e.message = "Invalid assignment target" ∧ e.span = ⟨4, 9⟩ := by
  intro a set b plus one set' c links
  have hoperand {e : Expr} (t : Token) {rest : List Token} (hp : Derives (.primary e) (t :: rest) rest)
      (hrest : ∀ t ∈ rest.head?, t.extendsOperand = false) : (unary 13 (expression 13) (t :: rest)).Yields e rest :=
    reads_of_derives (.operand hp (.endSuffixes hrest)) 13
  have hfirst : (unary 13 (expression 13) [a, set, b, plus, one, set', c]).Yields (named "a" a)
      [set, b, plus, one, set', c] := hoperand a (.name rfl) (by simp; rfl)
  have hlinks : Alternation 13 [set, b, plus, one, set', c] links [] :=
    .step rfl (hoperand b (@Derives.name "b" b _ rfl) (by simp; rfl))
      (.step rfl (hoperand one (@Derives.number default one _ rfl) (by simp; rfl))
        (.step rfl (hoperand c (@Derives.name "c" c _ rfl) (by simp)) (.done (by simp))))
  obtain ⟨t, ⟨hf, hl, ht⟩, hunique, -, hfails⟩ := (expression_layered 13 _).2.2 _ _ _ _ hfirst hlinks
  let sum : OpTree := .node (.binary .add) (.operand (.identifier "b" ⟨4, 5⟩))
    (.operand (.literal (.number default) "1" ⟨8, 9⟩))
  have hsum : sum.Layered := .other rfl (.operand _) (.operand _) trivial trivial
  have htree := hunique (.node (.assign .set) (.operand (.identifier "a" ⟨0, 1⟩))
    (.node (.assign .set) sum (.operand (.identifier "c" ⟨12, 13⟩)))) rfl rfl
    (.assign rfl (.operand _) (.assign rfl hsum (.operand _) (by decide : 2 ≤ 6) trivial) trivial (by decide : 1 ≤ 1))
  obtain ⟨e, kept, hexpression, hmessage, hspan⟩ := hfails sum.build (by rw [← htree]; rfl)
  exact ⟨hfirst, hlinks, e, kept, hexpression, hmessage, hspan⟩

end Reader

end TemplateSyntax.Expr
