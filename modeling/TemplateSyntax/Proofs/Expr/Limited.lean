import TemplateSyntax.Expr.Parse
import TemplateSyntax.Expr.Reader.Lemmas
import TemplateSyntax.Proofs.Settling

/-!
# Readers with a limit

The readers of expressions are loops that call one another. Here is what they do when each loop may take a limited
number of turns and brackets may nest to a limited depth; then a reader may also give up. It never does if the limit is
more than the number of tokens, and comes to the same outcome as without a limit (`finishes_of_lt`).

On the way it is seen that what a reader leaves of the tokens is the end of them, also when it fails. So expressions
that are read one after the other, past all errors, come to an end (`expressions_settle`).
-/

namespace TemplateSyntax.Expr

/-- What comes of reading with a limit: the limit is exceeded, or there is a result and the tokens that are left. -/
inductive Attempt (α : Type) where
  | exceeded
  | done (result : Except ExprError α) (rest : List Token)

namespace Attempt

variable {α β : Type}

/-- Goes on with the value and the rest; an error ends the reading. -/
def bind (a : Attempt α) (f : α → List Token → Attempt β) : Attempt β :=
  match a with
  | .exceeded => .exceeded
  | .done (.ok x) rest => f x rest
  | .done (.error e) rest => .done (.error e) rest

def map (f : α → β) (a : Attempt α) : Attempt β :=
  a.bind fun x rest => .done (.ok (f x)) rest

end Attempt

/-! ### Loops with a number of turns -/

namespace Reader.Limited

def closing (b : Bracket) (opener : Span) (ts : List Token) : Attempt Span :=
  .done (Reader.closing b opener ts).result (Reader.closing b opener ts).rest

section Loops

variable (item : List Token → Attempt Expr)

def elements (b : Bracket) (opener : Span) : (turns : Nat) → List Token → Attempt (List Expr × Span)
  | 0, _ => .exceeded
  | _ + 1, [] => .done (.error ⟨.unclosed b, opener⟩) []
  | turns + 1, t :: ts =>
    if t.is b.closer then .done (.ok ([], t.span)) ts
    else
      (item (t :: ts)).bind fun x rest =>
        match rest with
        | [] => .done (.error ⟨.unclosed b, opener⟩) []
        | sep :: rest =>
          if sep.is .comma then (elements b opener turns rest).map fun (xs, close) => (x :: xs, close)
          else if sep.is b.closer then .done (.ok ([x], sep.span)) rest
          else .done (.error ⟨.missingSeparator b, sep.span⟩) (sep :: rest)

def entries (opener : Span) : (turns : Nat) → List Token → Attempt (List (Expr × Expr) × Span)
  | 0, _ => .exceeded
  | turns + 1, ts =>
    (item ts).bind fun key rest =>
      match rest with
      | [] => .done (.error ⟨.unclosed .brace, opener⟩) []
      | colon :: rest =>
        if colon.is .colon then
          (item rest).bind fun value rest' =>
            match rest' with
            | [] => .done (.error ⟨.unclosed .brace, opener⟩) []
            | sep :: rest' =>
              if sep.is .comma then (entries opener turns rest').map fun (es, close) => ((key, value) :: es, close)
              else if sep.is .braceClose then .done (.ok ([(key, value)], sep.span)) rest'
              else .done (.error ⟨.missingEntryEnd, sep.span⟩) (sep :: rest')
        else .done (.error ⟨.missingColon, colon.span⟩) (colon :: rest)

variable (stop limit : Nat)

def mapBody (opener : Span) : List Token → Attempt (List (Expr × Expr) × Span)
  | [] => entries item opener limit []
  | t :: ts => if t.is .braceClose then .done (.ok ([], t.span)) ts else entries item opener limit (t :: ts)

def primary : List Token → Attempt Expr
  | [] => .done (.error ⟨.unexpectedEnd, ⟨stop, stop⟩⟩) []
  | t :: ts =>
    match t.kind with
    | .number value => .done (.ok (.literal (.number value) t.text t.span)) ts
    | .string value => .done (.ok (.literal (.string value) t.text t.span)) ts
    | .identifier name => .done (.ok (named name t)) ts
    | .punctuator .bracketOpen =>
      (elements item .square t.span limit ts).map fun (xs, close) => .array xs (t.span.upTo close)
    | .punctuator .braceOpen => (mapBody item limit t.span ts).map fun (es, close) => .map es (t.span.upTo close)
    | .punctuator .parenOpen => (item ts).bind fun e rest => (closing .paren t.span rest).map fun _ => e
    | _ => .done (.error ⟨.unexpectedToken t.text, t.span⟩) (t :: ts)

def suffix? (e : Expr) : List Token → Option (Attempt Expr)
  | [] => none
  | t :: ts =>
    match t.kind with
    | .punctuator .dot =>
      match ts with
      | ⟨.identifier name, _, s⟩ :: rest => some (.done (.ok (.field e name s (e.span.upTo s))) rest)
      | ts => some (.done (.error ⟨.missingProperty, nextSpan stop ts⟩) ts)
    | .punctuator .bracketOpen =>
      some ((item ts).bind fun key rest =>
        (closing .square t.span rest).map fun close => .index e key (e.span.upTo close))
    | .punctuator .parenOpen =>
      some ((elements item .paren t.span limit ts).map fun (args, close) => .call e args (e.span.upTo close))
    | kind =>
      kind.update?.map fun op =>
        if e.isAssignable then .done (.ok (.update op e false (e.span.upTo t.span))) ts
        else .done (.error ⟨.updateTarget, e.span⟩) ts

def suffixes : (turns : Nat) → (e : Expr) → List Token → Attempt Expr
  | 0, _, _ => .exceeded
  | turns + 1, e, ts =>
    match suffix? item stop limit e ts with
    | none => .done (.ok e) ts
    | some a => a.bind fun e rest => suffixes turns e rest

def operand (ts : List Token) : Attempt Expr :=
  (primary item stop limit ts).bind fun e rest => suffixes item stop limit limit e rest

def unary : (turns : Nat) → List Token → Attempt Expr
  | 0, _ => .exceeded
  | _ + 1, [] => operand item stop limit []
  | turns + 1, t :: ts =>
    match t.kind.unary?, t.kind.update? with
    | some op, _ => (unary turns ts).map fun e => .unary op e (t.span.upTo e.span)
    | none, some op =>
      (unary turns ts).bind fun e rest =>
        if e.isAssignable then .done (.ok (.update op e true (t.span.upTo e.span))) rest
        else .done (.error ⟨.updateTarget, e.span⟩) rest
    | none, none => operand item stop limit (t :: ts)

def chain : (turns : Nat) → List Token → Attempt (List (InfixOp × Expr))
  | 0, _ => .exceeded
  | _ + 1, [] => .done (.ok []) []
  | turns + 1, t :: ts =>
    match t.kind.infix? with
    | none => .done (.ok []) (t :: ts)
    | some op =>
      if ts.isEmpty then .done (.error ⟨.missingOperand op, t.span⟩) ts
      else
        (unary item stop limit limit ts).bind fun e rest => (chain turns rest).map fun links => (op, e) :: links

def expressionOver (ts : List Token) : Attempt Expr :=
  (unary item stop limit limit ts).bind fun first rest =>
    (chain item stop limit limit rest).bind fun links rest => .done (resolve [] first links) rest

end Loops

/-- An expression with less than `depth` brackets inside one another. -/
def expression (stop limit : Nat) : (depth : Nat) → List Token → Attempt Expr
  | 0, _ => .exceeded
  | depth + 1, ts => expressionOver (expression stop limit depth) stop limit ts

/-- The expressions of a token list; none if the limit is exceeded. -/
def items (stop limit : Nat) : (turns : Nat) → List Token → Option (Except ExprError (List Expr))
  | 0, _ => none
  | _ + 1, [] => some (.ok [])
  | turns + 1, t :: ts =>
    if t.is .semicolon || t.is .comma then items stop limit turns ts
    else
      match expression stop limit limit (t :: ts) with
      | .exceeded => none
      | .done (.error e) _ => some (.error e)
      | .done (.ok e) rest => (items stop limit turns rest).map (·.map (e :: ·))

end Reader.Limited

/-! ### Attempts that come to an end -/

namespace Outcome

variable {α β : Type} {m n : Nat} {ts ts' rest : List Token} {o : Outcome α n} {a : Attempt α}

/-- The attempt comes to the outcome, and what is left of the tokens is the end of them. -/
structure Meets (ts : List Token) (a : Attempt α) (o : Outcome α n) : Prop where
  attempt : a = .done o.result o.rest
  rest : o.rest <:+ ts

theorem meets_ok {x : α} {used : rest.length < n} (h : rest <:+ ts) :
    (Outcome.ok x rest used).Meets ts (.done (.ok x) rest) :=
  ⟨rfl, h⟩

theorem meets_error {e : ExprError} {kept : rest.length ≤ n} (h : rest <:+ ts) :
    (Outcome.error e rest kept : Outcome α n).Meets ts (.done (.error e) rest) :=
  ⟨rfl, h⟩

theorem Meets.bind {o : Outcome α m} (ho : o.Meets ts a) (h : m ≤ n)
    {f : (x : α) → (rest : List Token) → rest.length < m → Outcome β n} {g : α → List Token → Attempt β}
    (hf : ∀ x rest used, rest <:+ ts → (f x rest used).Meets ts' (g x rest)) (hts : ts <:+ ts') :
    (o.bind h f).Meets ts' (a.bind g) := by
  obtain ⟨rfl, hrest⟩ := ho
  cases o with
  | ok x rest used => exact hf x rest used hrest
  | error e rest kept => exact meets_error (hrest.trans hts)

theorem Meets.map (ho : o.Meets ts a) (f : α → β) : (o.map f).Meets ts (a.map f) := by
  obtain ⟨rfl, hrest⟩ := ho
  cases o with
  | ok x rest used => exact meets_ok hrest
  | error e rest kept => exact meets_error hrest

theorem Meets.mono (ho : o.Meets ts a) (h : ts <:+ ts') : o.Meets ts' a :=
  ⟨ho.attempt, ho.rest.trans h⟩

/-- A group is part of a longer list. -/
theorem Meets.group {o : Outcome α m} (ho : o.Meets ts a) (f : α → β) (h : m ≤ n) (hts : ts <:+ ts') :
    ((o.map f).widen h).Meets ts' (a.map f) := by
  have hmap := (ho.map f).mono hts
  obtain ⟨hattempt, hrest⟩ := hmap
  refine ⟨hattempt.trans ?_, ?_⟩
  · cases o <;> rfl
  · cases o <;> exact hrest

end Outcome

namespace Reader

open Outcome

theorem meets_closing (b : Bracket) (opener : Span) (ts : List Token) :
    (closing b opener ts).Meets ts (Limited.closing b opener ts) := by
  refine ⟨rfl, ?_⟩
  cases ts with
  | nil => exact List.suffix_refl []
  | cons t ts =>
    rw [closing]
    split
    · exact List.suffix_cons t ts
    · exact List.suffix_refl (t :: ts)

section Readers

variable {stop limit n turns : Nat} {item : Reader Expr} {item' : List Token → Attempt Expr}
  (hitem : ∀ ts, ts.length < n → (item ts).Meets ts (item' ts))

include hitem

theorem meets_elements (b : Bracket) (opener : Span) {ts : List Token} (hn : ts.length < n) (hts : ts.length < turns) :
    (elements item b opener ts).Meets ts (Limited.elements item' b opener turns ts) := by
  -- behind a comma there are fewer tokens, so that one turn less is still enough
  induction turns generalizing ts with
  | zero => omega
  | succ turns ih =>
    cases ts with
    | nil =>
      rw [elements, Limited.elements]
      exact meets_error (List.suffix_refl [])
    | cons t ts =>
      rw [elements, Limited.elements]
      split
      · exact meets_ok (List.suffix_cons t ts)
      · refine (hitem _ hn).bind _ (fun x rest used hrest => ?_) (List.suffix_refl _)
        cases rest with
        | nil => exact meets_error hrest
        | cons sep rest =>
          have hbehind : rest <:+ t :: ts := (List.suffix_cons sep rest).trans hrest
          rw [List.length_cons] at used
          dsimp only
          split
          · exact (ih (by omega) (by omega)).group _ _ hbehind
          · split
            · exact meets_ok hbehind
            · exact meets_error hrest

theorem meets_entries (opener : Span) {ts : List Token} (hn : ts.length < n) (hts : ts.length < turns) :
    (entries item opener ts).Meets ts (Limited.entries item' opener turns ts) := by
  induction turns generalizing ts with
  | zero => omega
  | succ turns ih =>
    rw [entries, Limited.entries]
    refine (hitem _ hn).bind _ (fun key rest used hrest => ?_) (List.suffix_refl _)
    cases rest with
    | nil => exact meets_error hrest
    | cons colon rest =>
      have hvalue : rest <:+ ts := (List.suffix_cons colon rest).trans hrest
      rw [List.length_cons] at used
      dsimp only
      split
      · refine (hitem rest (by omega)).bind _ (fun value rest' used' hrest' => ?_) hvalue
        cases rest' with
        | nil => exact meets_error (hrest'.trans hvalue)
        | cons sep rest' =>
          have hbehind : rest' <:+ ts := ((List.suffix_cons sep rest').trans hrest').trans hvalue
          rw [List.length_cons] at used'
          dsimp only
          split
          · exact (ih (by omega) (by omega)).group _ _ hbehind
          · split
            · exact meets_ok hbehind
            · exact meets_error (hrest'.trans hvalue)
      · exact meets_error hrest

theorem meets_mapBody (opener : Span) {ts : List Token} (hn : ts.length < n) (hts : ts.length < limit) :
    (mapBody item opener ts).Meets ts (Limited.mapBody item' limit opener ts) := by
  cases ts with
  | nil => exact meets_entries hitem opener hn hts
  | cons t ts =>
    rw [mapBody, Limited.mapBody]
    split
    · exact meets_ok (List.suffix_cons t ts)
    · exact meets_entries hitem opener hn hts

theorem meets_primary {ts : List Token} (hn : ts.length ≤ n) (hts : ts.length < limit) :
    (primary stop item ts).Meets ts (Limited.primary item' stop limit ts) := by
  cases ts with
  | nil => exact meets_error (List.suffix_refl [])
  | cons t ts =>
    have hbehind : ts <:+ t :: ts := List.suffix_cons t ts
    have hlt : ts.length < n := hn
    have hlt' : ts.length < limit := Nat.lt_of_succ_lt hts
    obtain ⟨kind, text, s⟩ := t
    cases kind with
    | number | string | identifier => exact meets_ok hbehind
    | eof => exact meets_error (List.suffix_refl _)
    | punctuator p =>
      cases p with
      | bracketOpen => exact (meets_elements hitem .square s hlt hlt').group _ (Nat.le_succ _) hbehind
      | braceOpen => exact (meets_mapBody hitem s hlt hlt').group _ (Nat.le_succ _) hbehind
      | parenOpen =>
        refine (hitem ts hlt).bind (Nat.le_succ _) (fun e rest used hrest => ?_) hbehind
        exact (meets_closing .paren s rest).group _ (Nat.le_of_lt (Nat.lt_succ_of_lt used)) (hrest.trans hbehind)
      | _ => exact meets_error (List.suffix_refl _)

theorem meets_suffix? (e : Expr) {ts : List Token} (hn : ts.length ≤ n) (hts : ts.length < limit) :
    Option.Rel (Meets ts) (Limited.suffix? item' stop limit e ts) (suffix? stop item e ts) := by
  cases ts with
  | nil => exact .none
  | cons t ts =>
    have hbehind : ts <:+ t :: ts := List.suffix_cons t ts
    have hlt : ts.length < n := hn
    have hlt' : ts.length < limit := Nat.lt_of_succ_lt hts
    obtain ⟨kind, text, s⟩ := t
    have hupdate (op : UpdateOp) :
        Meets (⟨kind, text, s⟩ :: ts)
          (if e.isAssignable then .done (.ok (.update op e false (e.span.upTo s))) ts
            else .done (.error ⟨.updateTarget, e.span⟩) ts)
          (if e.isAssignable then .ok (.update op e false (e.span.upTo s)) ts (Nat.lt_succ_self _)
            else .error ⟨.updateTarget, e.span⟩ ts (Nat.le_succ _) : Outcome Expr (ts.length + 1)) := by
      split
      · exact meets_ok hbehind
      · exact meets_error hbehind
    cases kind with
    | number | string | identifier | eof => exact .none
    | punctuator p =>
      cases p with
      | dot =>
        cases ts with
        | nil => exact .some (meets_error hbehind)
        | cons t ts =>
          obtain ⟨kind, text', s'⟩ := t
          cases kind with
          | identifier name => exact .some (meets_ok ((List.suffix_cons _ ts).trans hbehind))
          | _ => exact .some (meets_error hbehind)
      | bracketOpen =>
        refine .some ((hitem ts hlt).bind (Nat.le_succ _) (fun key rest used hrest => ?_) hbehind)
        exact (meets_closing .square s rest).group _ (Nat.le_of_lt (Nat.lt_succ_of_lt used)) (hrest.trans hbehind)
      | parenOpen => exact .some ((meets_elements hitem .paren s hlt hlt').group _ (Nat.le_succ _) hbehind)
      | plusPlus => exact .some (hupdate .increment)
      | minusMinus => exact .some (hupdate .decrement)
      | _ => exact .none

theorem meets_suffixes {m : Nat} (e : Expr) {ts : List Token} (h : ts.length < m) (hn : ts.length ≤ n)
    (hts : ts.length < limit) (hturns : ts.length < turns) :
    (suffixes stop item e ts h).Meets ts (Limited.suffixes item' stop limit turns e ts) := by
  induction turns generalizing e ts m with
  | zero => omega
  | succ turns ih =>
    have hfirst : Option.Rel (Meets ts) (Limited.suffix? item' stop limit e ts) (suffix? stop item e ts) :=
      meets_suffix? hitem e hn hts
    rw [suffixes, Limited.suffixes]
    generalize suffix? stop item e ts = o at hfirst
    generalize Limited.suffix? item' stop limit e ts = a at hfirst
    cases hfirst with
    | none => exact meets_ok (List.suffix_refl ts)
    | some hmeets =>
      refine hmeets.bind _ (fun e rest used hrest => ?_) (List.suffix_refl ts)
      exact (ih e _ (by omega) (by omega) (by omega)).mono hrest

theorem meets_operand {ts : List Token} (hn : ts.length ≤ n) (hts : ts.length < limit) :
    (operand stop item ts).Meets ts (Limited.operand item' stop limit ts) := by
  refine (meets_primary hitem hn hts).bind _ (fun e rest used hrest => ?_) (List.suffix_refl ts)
  exact (meets_suffixes hitem e used (by omega) (by omega) (by omega)).mono hrest

theorem meets_unary {ts : List Token} (hn : ts.length ≤ n) (hts : ts.length < limit) (hturns : ts.length < turns) :
    (unary stop item ts).Meets ts (Limited.unary item' stop limit turns ts) := by
  induction turns generalizing ts with
  | zero => omega
  | succ turns ih =>
    cases ts with
    | nil => exact meets_operand hitem hn hts
    | cons t ts =>
      have hbehind : ts <:+ t :: ts := List.suffix_cons t ts
      have hinner : (unary stop item ts).Meets ts (Limited.unary item' stop limit turns ts) :=
        ih (Nat.le_of_lt hn) (Nat.lt_of_succ_lt hts) (Nat.lt_of_succ_lt_succ hturns)
      rw [unary, Limited.unary]
      cases t.kind.unary? with
      | some op => exact hinner.bind (Nat.le_succ _) (fun e rest used hrest => meets_ok (hrest.trans hbehind)) hbehind
      | none =>
        cases t.kind.update? with
        | some op =>
          refine hinner.bind (Nat.le_succ _) (fun e rest used hrest => ?_) hbehind
          split
          · exact meets_ok (hrest.trans hbehind)
          · exact meets_error (hrest.trans hbehind)
        | none => exact meets_operand hitem hn hts

theorem meets_chain {m : Nat} {ts : List Token} (h : ts.length < m) (hn : ts.length ≤ n) (hts : ts.length < limit)
    (hturns : ts.length < turns) :
    (chain stop item ts h).Meets ts (Limited.chain item' stop limit turns ts) := by
  induction turns generalizing ts m with
  | zero => omega
  | succ turns ih =>
    cases ts with
    | nil =>
      rw [chain]
      exact meets_ok (List.suffix_refl [])
    | cons t ts =>
      have hbehind : ts <:+ t :: ts := List.suffix_cons t ts
      rw [List.length_cons] at hn hts hturns
      rw [chain, Limited.chain]
      cases t.kind.infix? with
      | none => exact meets_ok (List.suffix_refl _)
      | some op =>
        by_cases hempty : ts.isEmpty = true
        · simp only [hempty, if_true]
          exact meets_error hbehind
        · simp only [hempty]
          have hunary : (unary stop item ts).Meets ts (Limited.unary item' stop limit limit ts) :=
            meets_unary hitem (by omega) (by omega) (by omega)
          refine hunary.bind (Nat.le_of_lt (Nat.lt_of_succ_lt h)) (fun e rest used hrest => ?_) hbehind
          exact ((ih _ (by omega) (by omega) (by omega)).map _).mono (hrest.trans hbehind)

theorem meets_expressionOver {ts : List Token} (hn : ts.length ≤ n) (hts : ts.length < limit) :
    (expressionOver stop item ts).Meets ts (Limited.expressionOver item' stop limit ts) := by
  refine (meets_unary hitem hn hts hts).bind _ (fun first rest used hrest => ?_) (List.suffix_refl ts)
  refine (meets_chain hitem used (by omega) (by omega) (by omega)).bind _ (fun links rest' _ hrest' => ?_) hrest
  have hall : rest' <:+ ts := hrest'.trans hrest
  cases resolve [] first links with
  | ok e => exact meets_ok hall
  | error e => exact meets_error hall

end Readers

/-! ### Expressions -/

variable {stop limit : Nat}

theorem meets_expression {depth : Nat} {ts : List Token} (hdepth : ts.length < depth) (hts : ts.length < limit) :
    (expression stop ts).Meets ts (Limited.expression stop limit depth ts) := by
  -- a group in brackets is read on fewer tokens, so that one level less is still enough
  induction depth generalizing ts with
  | zero => omega
  | succ depth ih =>
    rw [expression_eq, Limited.expression]
    exact meets_expressionOver (n := ts.length) (fun us hus => ih (by omega) (by omega)) (Nat.le_refl _) hts

theorem rest_suffix (stop : Nat) (ts : List Token) : (expression stop ts).rest <:+ ts :=
  (meets_expression (Nat.lt_succ_self _) (Nat.lt_succ_self _)).rest

theorem limited_items_eq {turns : Nat} {ts : List Token} (hts : ts.length < limit) (hturns : ts.length < turns) :
    Limited.items stop limit turns ts = some (items stop ts) := by
  induction turns generalizing ts with
  | zero => omega
  | succ turns ih =>
    cases ts with
    | nil =>
      rw [items]
      rfl
    | cons t ts =>
      have hmeets : (expression stop (t :: ts)).Meets (t :: ts) (Limited.expression stop limit limit (t :: ts)) :=
        meets_expression hts hts
      have hattempt := hmeets.attempt
      rw [List.length_cons] at hts hturns
      rw [items, Limited.items, hattempt]
      split
      · exact ih (by omega) (by omega)
      · cases expression stop (t :: ts) with
        | error e rest kept => rfl
        | ok e rest used =>
          rw [List.length_cons] at used
          dsimp only [Outcome.result, Outcome.rest]
          rw [ih (by omega) (by omega)]
          cases items stop rest <;> rfl

/-- Within the limit all readers come to an end on the tokens, each with the outcome that it has without a limit. -/
structure Finishes (stop limit : Nat) (ts : List Token) : Prop where
  expression : Limited.expression stop limit limit ts = .done (expression stop ts).result (expression stop ts).rest
  suffixes : ∀ e,
    let o := suffixes stop (Reader.expression stop) e ts (Nat.lt_succ_self _)
    Limited.suffixes (Limited.expression stop limit limit) stop limit limit e ts = .done o.result o.rest
  elements : ∀ b opener,
    let o := elements (Reader.expression stop) b opener ts
    Limited.elements (Limited.expression stop limit limit) b opener limit ts = .done o.result o.rest
  mapBody : ∀ opener,
    let o := mapBody (Reader.expression stop) opener ts
    Limited.mapBody (Limited.expression stop limit limit) limit opener ts = .done o.result o.rest
  items : Limited.items stop limit limit ts = some (items stop ts)

/-- A limit above the number of tokens is not exceeded. -/
theorem finishes_of_lt {ts : List Token} (h : ts.length < limit) : Finishes stop limit ts := by
  have hitem : ∀ us, us.length < limit →
      (Reader.expression stop us).Meets us (Limited.expression stop limit limit us) :=
    fun us hus => meets_expression hus hus
  exact {
    expression := (hitem ts h).attempt
    suffixes := fun e => (meets_suffixes hitem e _ (Nat.le_of_lt h) h h).attempt
    elements := fun b opener => (meets_elements hitem b opener h h).attempt
    mapBody := fun opener => (meets_mapBody hitem opener h h).attempt
    items := limited_items_eq h h }

/-! ### Expressions one after the other -/

/-- One reading: what comes of it, and the tokens that the next reading starts with. -/
def step (stop : Nat) (ts : List Token) : Except ExprError Expr × List Token :=
  ((expression stop ts).result, (expression stop ts).rest)

theorem expressions_eq_answers (stop n : Nat) (ts : List Token) : expressions stop n ts = answers (step stop) n ts := by
  induction n generalizing ts with
  | zero => rfl
  | succ n ih =>
    rw [expressions, answers, ih]
    rfl

/-- A success uses a token. -/
theorem length_lt_of_step {ts : List Token} {e : Expr} (h : (step stop ts).1 = .ok e) :
    (step stop ts).2.length < ts.length := by
  unfold step at h ⊢
  cases ho : expression stop ts with
  | ok e' rest used => exact used
  | error e' rest kept =>
    rw [ho] at h
    cases h

/-- A reading that leaves as many tokens as there were is repeated for ever. -/
theorem step_step_of_length {ts : List Token} (h : (step stop ts).2.length = ts.length) :
    step stop (step stop ts).2 = step stop ts := by
  have hrest : (step stop ts).2 = ts := (rest_suffix stop ts).eq_of_length h
  rw [hrest]

theorem length_lt_or_settled (ts : List Token) :
    (step stop ts).2.length < ts.length ∨ Settled (step stop) (step stop ts).1 ts := by
  have hle := (rest_suffix stop ts).length_le
  by_cases h : (step stop ts).2.length = ts.length
  · exact .inr (settled_of_repeat (step_step_of_length h))
  · exact .inl (Nat.lt_of_le_of_ne hle h)

/-- Expressions are read one after the other, past all errors. No reading goes back, one that succeeds goes forward,
and one that does not is repeated for ever. So from as many readings as there are tokens on all answers are the same.
Each reading ends, and so does each loop in it, within as many turns as there are tokens left and one more. -/
theorem expressions_settle (stop : Nat) (ts : List Token) :
    let left := fun n => stateAfter (step stop) n ts
    (∀ n, left n <:+ ts ∧ left (n + 1) <:+ left n) ∧
    (∀ n e, (step stop (left n)).1 = .ok e → (left (n + 1)).length < (left n).length) ∧
    (∀ n k, (left (n + 1)).length = (left n).length → step stop (left (n + k)) = step stop (left n)) ∧
    (∃ answer, ∀ n, expressions stop (ts.length + n) ts = expressions stop ts.length ts ++ List.replicate n answer) ∧
    ∀ us limit, us.length < limit → Finishes stop limit us := by
  have hnext (n : Nat) : stateAfter (step stop) (n + 1) ts = (step stop (stateAfter (step stop) n ts)).2 :=
    stateAfter_succ (step stop) n ts
  refine ⟨fun n => ⟨?_, ?_⟩, ?_, ?_, ?_, fun us limit => finishes_of_lt⟩
  · induction n with
    | zero => exact List.suffix_refl ts
    | succ n ih =>
      dsimp only at ih ⊢
      rw [hnext]
      exact (rest_suffix stop _).trans ih
  · dsimp only
    rw [hnext]
    exact rest_suffix stop _
  · intro n e h
    dsimp only at h ⊢
    rw [hnext]
    exact length_lt_of_step h
  · intro n k h
    dsimp only at h ⊢
    rw [hnext] at h
    rw [stateAfter_add]
    induction k with
    | zero => rfl
    | succ k ih => rw [stateAfter_succ, ih, step_step_of_length h]
  · have hstep : ∀ us, (step stop us).2.length < us.length ∨ ∃ a, Settled (step stop) a us :=
      fun us => (length_lt_or_settled us).imp_right fun h => ⟨_, h⟩
    obtain ⟨answer, hanswer⟩ := exists_answers_eq List.length hstep (Nat.le_refl ts.length)
    refine ⟨answer, fun n => ?_⟩
    rw [expressions_eq_answers, expressions_eq_answers, hanswer n]

/-- A name is read, then a plus sign is passed in search of an operand, and from there on a bracket is in the way. -/
theorem expressions_settle_bracket :
    let name : Token := ⟨.identifier "a", "a", ⟨0, 1⟩⟩
    let plus : Token := ⟨.punctuator .plus, "+", ⟨2, 3⟩⟩
    let bracket : Token := ⟨.punctuator .bracketClose, "]", ⟨3, 4⟩⟩
    let left := fun n => stateAfter (step 4) n [name, name, plus, bracket]
    (left 1).length < (left 0).length ∧ (left 3).length = (left 2).length ∧
      step 4 (left (2 + 5)) = step 4 (left 2) ∧ (step 4 (left 2)).2 = [bracket] ∧
      Finishes 4 5 [name, name, plus, bracket] := by
  intro name plus bracket left
  obtain ⟨-, hok, hstays, -, hfinishes⟩ := expressions_settle 4 [name, name, plus, bracket]
  have hsome : (step 4 (left 0)).1.toOption.isSome = true := by decide +kernel
  obtain ⟨e, hname⟩ : ∃ e, (step 4 (left 0)).1 = .ok e := by
    cases hanswer : (step 4 (left 0)).1 with
    | ok e => exact ⟨e, rfl⟩
    | error e =>
      rw [hanswer] at hsome
      cases hsome
  have hkept : (left 3).length = (left 2).length := by decide +kernel
  have hleft : (step 4 (left 2)).2 = [bracket] := by decide +kernel
  exact ⟨hok 0 _ hname, hkept, hstays 2 5 hkept, hleft, hfinishes _ 5 (by decide)⟩

end Reader

end TemplateSyntax.Expr
