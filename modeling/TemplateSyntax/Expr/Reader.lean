import TemplateSyntax.Expr.Chain

/-!
# Reading expressions

Readers take tokens from the front of a list. Each says in its type that a success uses at least one token and a
failure gives none back, so every loop ends because the list gets shorter. The parts of an expression are readers
over a reader `item` for the expressions inside brackets; `expression` closes the circle, and `expression_eq` is the
equation by which to reason about it.
-/

namespace TemplateSyntax.Expr

/-! ### Outcomes -/

/-- What comes of reading a list of `n` tokens: a value or an error, and the tokens that are left. -/
inductive Outcome (α : Type) (n : Nat) where
  | ok (value : α) (rest : List Token) (used : rest.length < n)
  | error (e : ExprError) (rest : List Token) (kept : rest.length ≤ n)

namespace Outcome

variable {α β : Type} {m n : Nat}

def result : Outcome α n → Except ExprError α
  | .ok a _ _ => .ok a
  | .error e _ _ => .error e

def rest : Outcome α n → List Token
  | .ok _ rest _ => rest
  | .error _ rest _ => rest

/-- Goes on with the value and the rest; an error ends the reading. -/
def bind (o : Outcome α m) (h : m ≤ n) (f : (a : α) → (rest : List Token) → rest.length < m → Outcome β n) :
    Outcome β n :=
  match o with
  | .ok a rest used => f a rest used
  | .error e rest kept => .error e rest (Nat.le_trans kept h)

def map (f : α → β) : Outcome α n → Outcome β n
  | .ok a rest used => .ok (f a) rest used
  | .error e rest kept => .error e rest kept

/-- The same outcome, for a longer list. -/
def widen (h : m ≤ n) : Outcome α m → Outcome α n
  | .ok a rest used => .ok a rest (Nat.lt_of_lt_of_le used h)
  | .error e rest kept => .error e rest (Nat.le_trans kept h)

end Outcome

abbrev Reader (α : Type) := (ts : List Token) → Outcome α ts.length

/-- The span of the next token; at the end it is empty. -/
def nextSpan (stop : Nat) : List Token → Span
  | [] => ⟨stop, stop⟩
  | t :: _ => t.span

namespace Reader

/-! ### Groups -/

/-- The closing bracket of a group. -/
def closing (b : Bracket) (opener : Span) : Reader Span
  | [] => .error ⟨.unclosed b, opener⟩ [] (Nat.le_refl _)
  | t :: ts =>
    if t.is b.closer then .ok t.span ts (Nat.lt_succ_self _)
    else .error ⟨.missingCloser b, t.span⟩ (t :: ts) (Nat.le_refl _)

/-- The items of a list and its closing bracket; a comma may follow the last item. -/
def elements (item : Reader Expr) (b : Bracket) (opener : Span) : Reader (List Expr × Span)
  | [] => .error ⟨.unclosed b, opener⟩ [] (Nat.le_refl _)
  | t :: ts =>
    if t.is b.closer then .ok ([], t.span) ts (Nat.lt_succ_self _)
    else
      (item (t :: ts)).bind (Nat.le_refl _) fun x rest h =>
        match rest, h with
        | [], _ => .error ⟨.unclosed b, opener⟩ [] (Nat.zero_le _)
        | sep :: rest, h =>
          if sep.is .comma then
            ((elements item b opener rest).map fun (xs, close) => (x :: xs, close)).widen
              (Nat.le_of_lt (Nat.lt_of_succ_lt h))
          else if sep.is b.closer then .ok ([x], sep.span) rest (Nat.lt_of_succ_lt h)
          else .error ⟨.missingSeparator b, sep.span⟩ (sep :: rest) (Nat.le_of_lt h)
termination_by ts => ts.length
decreasing_by exact Nat.lt_of_succ_lt h

/-- The entries of a map and its closing brace; after a comma there must be another entry. -/
def entries (item : Reader Expr) (opener : Span) (ts : List Token) : Outcome (List (Expr × Expr) × Span) ts.length :=
  (item ts).bind (Nat.le_refl _) fun key rest h =>
    match rest, h with
    | [], _ => .error ⟨.unclosed .brace, opener⟩ [] (Nat.zero_le _)
    | colon :: rest, h =>
      if colon.is .colon then
        (item rest).bind (Nat.le_of_lt (Nat.lt_of_succ_lt h)) fun value rest' h' =>
          match rest', h' with
          | [], _ => .error ⟨.unclosed .brace, opener⟩ [] (Nat.zero_le _)
          | sep :: rest', h' =>
            have hlt : rest'.length < ts.length := Nat.lt_trans (Nat.lt_of_succ_lt h') (Nat.lt_of_succ_lt h)
            if sep.is .comma then
              ((entries item opener rest').map fun (es, close) => ((key, value) :: es, close)).widen
                (Nat.le_of_lt hlt)
            else if sep.is .braceClose then .ok ([(key, value)], sep.span) rest' hlt
            else
              .error ⟨.missingEntryEnd, sep.span⟩ (sep :: rest') (Nat.le_of_lt (Nat.lt_trans h' (Nat.lt_of_succ_lt h)))
      else .error ⟨.missingColon, colon.span⟩ (colon :: rest) (Nat.le_of_lt h)
termination_by ts.length
decreasing_by exact hlt

/-- What follows the opening brace of a map. -/
def mapBody (item : Reader Expr) (opener : Span) : Reader (List (Expr × Expr) × Span)
  | [] => entries item opener []
  | t :: ts =>
    if t.is .braceClose then .ok ([], t.span) ts (Nat.lt_succ_self _)
    else entries item opener (t :: ts)

/-! ### Operands -/

/-- A name stands for a literal or a variable. -/
def named (name : String) (t : Token) : Expr :=
  match name with
  | "true" => .literal (.boolean true) t.text t.span
  | "false" => .literal (.boolean false) t.text t.span
  | "null" => .literal .null t.text t.span
  | _ => .identifier name t.span

/-- A literal, a name, or a group in brackets. -/
def primary (stop : Nat) (item : Reader Expr) : Reader Expr
  | [] => .error ⟨.unexpectedEnd, ⟨stop, stop⟩⟩ [] (Nat.le_refl _)
  | t :: ts =>
    match t.kind with
    | .number value => .ok (.literal (.number value) t.text t.span) ts (Nat.lt_succ_self _)
    | .string value => .ok (.literal (.string value) t.text t.span) ts (Nat.lt_succ_self _)
    | .identifier name => .ok (named name t) ts (Nat.lt_succ_self _)
    | .punctuator .bracketOpen =>
      ((elements item .square t.span ts).map fun (xs, close) => .array xs (t.span.upTo close)).widen (Nat.le_succ _)
    | .punctuator .braceOpen =>
      ((mapBody item t.span ts).map fun (es, close) => .map es (t.span.upTo close)).widen (Nat.le_succ _)
    | .punctuator .parenOpen =>
      (item ts).bind (Nat.le_succ _) fun e rest h =>
        ((closing .paren t.span rest).map fun _ => e).widen (Nat.le_of_lt (Nat.lt_succ_of_lt h))
    | _ => .error ⟨.unexpectedToken t.text, t.span⟩ (t :: ts) (Nat.le_refl _)

/-- One step of the chain of accesses, calls and updates after `e`, if there is one. -/
def suffix? (stop : Nat) (item : Reader Expr) (e : Expr) : (ts : List Token) → Option (Outcome Expr ts.length)
  | [] => none
  | t :: ts =>
    match t.kind with
    | .punctuator .dot =>
      match ts with
      | ⟨.identifier name, _, s⟩ :: rest =>
        some (.ok (.field e name s (e.span.upTo s)) rest (Nat.lt_succ_of_lt (Nat.lt_succ_self _)))
      | ts => some (.error ⟨.missingProperty, nextSpan stop ts⟩ ts (Nat.le_succ _))
    | .punctuator .bracketOpen =>
      some ((item ts).bind (Nat.le_succ _) fun key rest h =>
        ((closing .square t.span rest).map fun close => .index e key (e.span.upTo close)).widen
          (Nat.le_of_lt (Nat.lt_succ_of_lt h)))
    | .punctuator .parenOpen =>
      some (((elements item .paren t.span ts).map fun (args, close) => .call e args (e.span.upTo close)).widen
        (Nat.le_succ _))
    | kind =>
      kind.update?.map fun op =>
        if e.isAssignable then .ok (.update op e false (e.span.upTo t.span)) ts (Nat.lt_succ_self _)
        else .error ⟨.updateTarget, e.span⟩ ts (Nat.le_succ _)

/-- All accesses, calls and updates after `e`. -/
def suffixes (stop : Nat) (item : Reader Expr) {n : Nat} (e : Expr) (ts : List Token) (h : ts.length < n) :
    Outcome Expr n :=
  match suffix? stop item e ts with
  | none => .ok e ts h
  | some o => o.bind (Nat.le_of_lt h) fun e rest h' => suffixes stop item e rest (Nat.lt_trans h' h)
termination_by ts.length
decreasing_by exact h'

def operand (stop : Nat) (item : Reader Expr) (ts : List Token) : Outcome Expr ts.length :=
  (primary stop item ts).bind (Nat.le_refl _) fun e rest h => suffixes stop item e rest h

/-- An operand with the operators in front of it. -/
def unary (stop : Nat) (item : Reader Expr) : Reader Expr
  | [] => operand stop item []
  | t :: ts =>
    match t.kind.unary?, t.kind.update? with
    | some op, _ =>
      (unary stop item ts).bind (Nat.le_succ _) fun e rest h =>
        .ok (.unary op e (t.span.upTo e.span)) rest (Nat.lt_succ_of_lt h)
    | none, some op =>
      (unary stop item ts).bind (Nat.le_succ _) fun e rest h =>
        if e.isAssignable then .ok (.update op e true (t.span.upTo e.span)) rest (Nat.lt_succ_of_lt h)
        else .error ⟨.updateTarget, e.span⟩ rest (Nat.le_of_lt (Nat.lt_succ_of_lt h))
    | none, none => operand stop item (t :: ts)

/-! ### Expressions -/

/-- The operators and operands that follow the first operand, as far as they go. -/
def chain (stop : Nat) (item : Reader Expr) {n : Nat} : (ts : List Token) → ts.length < n →
    Outcome (List (InfixOp × Expr)) n
  | [], h => .ok [] [] h
  | t :: ts, h =>
    match t.kind.infix? with
    | none => .ok [] (t :: ts) h
    | some op =>
      if ts.isEmpty then .error ⟨.missingOperand op, t.span⟩ ts (Nat.le_of_lt (Nat.lt_of_succ_lt h))
      else
        (unary stop item ts).bind (Nat.le_of_lt (Nat.lt_of_succ_lt h)) fun e rest h' =>
          (chain stop item rest (Nat.lt_trans h' (Nat.lt_of_succ_lt h))).map fun links => (op, e) :: links
termination_by ts => ts.length
decreasing_by exact Nat.lt_succ_of_lt h'

/-- An expression whose bracketed parts are read by `item`. -/
def expressionOver (stop : Nat) (item : Reader Expr) (ts : List Token) : Outcome Expr ts.length :=
  (unary stop item ts).bind (Nat.le_refl _) fun first rest h =>
    (chain stop item rest h).bind (Nat.le_refl _) fun links rest h =>
      match resolve [] first links with
      | .ok e => .ok e rest h
      | .error e => .error e rest (Nat.le_of_lt h)

/-- An expression with at most `depth` brackets inside one another. -/
def expressionWithin (stop : Nat) : (depth : Nat) → Reader Expr
  | 0, ts => .error ⟨.unexpectedEnd, nextSpan stop ts⟩ ts (Nat.le_refl _)
  | depth + 1, ts => expressionOver stop (expressionWithin stop depth) ts

/-- An expression at the start of `ts`. Brackets nest no deeper than there are tokens. -/
def expression (stop : Nat) (ts : List Token) : Outcome Expr ts.length :=
  expressionWithin stop ts.length ts

/-- The results of `n` readings one after the other. -/
def expressions (stop : Nat) : (n : Nat) → List Token → List (Except ExprError Expr)
  | 0, _ => []
  | n + 1, ts =>
    let o := expression stop ts
    o.result :: expressions stop n o.rest

end Reader

end TemplateSyntax.Expr
