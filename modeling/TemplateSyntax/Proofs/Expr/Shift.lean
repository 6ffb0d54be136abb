import TemplateSyntax.Proofs.Expr.Relocation

/-!
# Moving expressions

To move all spans by some bytes keeps joins, and the tokens of a text that is moved are its tokens, moved. So an
expression is read in the same way wherever it stands, and if it is moved all its spans move with it (`parseAt_add`).
The same goes for tokens and expressions that are read one after the other, on from wherever an error left off
(`answers_at_base`).
-/

namespace TemplateSyntax

def ExprError.shift (n : Nat) (e : ExprError) : ExprError :=
  { e with span := e.span.shift n }

/-- The value or the error moved by `n` bytes. -/
def shiftResult {α : Type} (n : Nat) (move : α → α) : Except ExprError α → Except ExprError α
  | .ok a => .ok (move a)
  | .error e => .error (e.shift n)

namespace Expr

/-! ### Moving expressions and tokens -/

/-- The expression and all its parts moved by `n` bytes. -/
def shift (n : Nat) : Expr → Expr :=
  mapSpans (Span.shift n)

def Token.shift (n : Nat) (t : Token) : Token :=
  { t with span := t.span.shift n }

variable {n : Nat}

@[simp] theorem span_shift (e : Expr) : (e.shift n).span = e.span.shift n :=
  span_mapSpans e

@[simp] theorem isAssignable_shift (e : Expr) : (e.shift n).isAssignable = e.isAssignable :=
  isAssignable_mapSpans (Span.shift n) e

theorem shift_call (callee : Expr) (arguments : List Expr) (s : Span) :
    (Expr.call callee arguments s).shift n = .call (callee.shift n) (arguments.map (shift n)) (s.shift n) :=
  mapSpans_call callee arguments s

theorem shift_compound (items : List Expr) (s : Span) :
    (Expr.compound items s).shift n = .compound (items.map (shift n)) (s.shift n) :=
  mapSpans_compound items s

mutual

theorem mapSpans_id : (e : Expr) → e.mapSpans id = e
  | .literal .. | .identifier .. => rfl
  | .field object .. => by rw [mapSpans, mapSpans_id object]; rfl
  | .index object key _ => by rw [mapSpans, mapSpans_id object, mapSpans_id key]; rfl
  | .call callee arguments _ => by rw [mapSpans, mapSpans_id callee, listMapSpans_id arguments]; rfl
  | .array elements _ => by rw [mapSpans, listMapSpans_id elements]; rfl
  | .map entries _ => by rw [mapSpans, entriesMapSpans_id entries]; rfl
  | .unary _ argument _ => by rw [mapSpans, mapSpans_id argument]; rfl
  | .update _ argument _ _ => by rw [mapSpans, mapSpans_id argument]; rfl
  | .join _ left right _ => by rw [mapSpans, mapSpans_id left, mapSpans_id right]; rfl
  | .compound items _ => by rw [mapSpans, listMapSpans_id items]; rfl

theorem listMapSpans_id : (es : List Expr) → listMapSpans id es = es
  | [] => rfl
  | e :: es => by rw [listMapSpans, mapSpans_id e, listMapSpans_id es]

theorem entriesMapSpans_id : (es : List (Expr × Expr)) → entriesMapSpans id es = es
  | [] => rfl
  | (key, value) :: es => by rw [entriesMapSpans, mapSpans_id key, mapSpans_id value, entriesMapSpans_id es]

end

theorem shift_zero : shift 0 = id :=
  funext mapSpans_id

theorem keepsJoins_shift (n : Nat) : Span.KeepsJoins (Span.shift n) :=
  Span.shift_upTo n

theorem shiftResult_eq_relocate {α : Type} (n : Nat) (move : α → α) (r : Except ExprError α) :
    shiftResult n move r = relocate (Span.shift n) move r := by
  cases r <;> rfl

/-! ### Tokens of a text -/

namespace Cursor

def shift (n : Nat) (cur : Cursor) : Cursor :=
  { cur with offset := cur.offset + n }

theorem answer_add (start : Nat) (r : Reading) :
    r.answer (start + n) = shiftResult n (Token.shift n) (r.answer start) := by
  unfold Reading.answer
  split
  · simp only [shiftResult, Token.shift, Span.shift, Nat.add_right_comm _ n]
  · next fault _ =>
    unfold Reading.faultSpan
    cases fault <;> simp only [shiftResult, ExprError.shift, Span.shift, Nat.add_right_comm _ n]

theorem next_shift (cur : Cursor) :
    (cur.shift n).next = (shiftResult n (Token.shift n) cur.next.1, cur.next.2.shift n) := by
  have hrest : (cur.shift n).rest = cur.rest := rfl
  unfold next
  rw [hrest]
  cases cur.rest.dropWhile Text.isBlank with
  | nil => simp only [shiftResult, shift, endToken, Token.shift, Span.shift, Nat.add_right_comm _ n]
  | cons d ds => simp only [shift, Nat.add_right_comm _ n, answer_add]

theorem tokens_shift (cur : Cursor) :
    (cur.shift n).tokens = shiftResult n (Prod.map (List.map (Token.shift n)) (· + n)) cur.tokens := by
  induction hn : cur.rest.length using Nat.strongRecOn generalizing cur with
  | ind k ih =>
    rw [tokens_eq, tokens_eq cur, next_shift]
    cases hnext : cur.next with
    | mk result cur' =>
      cases result with
      | error e => rfl
      | ok t =>
        have hkind : (t.shift n).kind = t.kind := rfl
        dsimp only [shiftResult]
        rw [hkind]
        by_cases ht : t.kind = .eof
        · rw [if_pos ht, if_pos ht]
          rfl
        · rw [if_neg ht, if_neg ht, ih cur'.rest.length (hn ▸ length_lt_of_next hnext ht) cur' rfl]
          cases cur'.tokens <;> rfl

theorem run_shift (k : Nat) (cur : Cursor) : (cur.shift n).run k = (cur.run k).map (shiftResult n (Token.shift n)) := by
  induction k generalizing cur with
  | zero => rfl
  | succ k ih => rw [run, next_shift, ih, run, List.map_cons]

theorem shift_ofSource (source : String) (base n : Nat) : (ofSource source base).shift n = ofSource source (base + n) :=
  rfl

end Cursor

theorem tokenizeAt_add (source : String) (base n : Nat) :
    tokenizeAt source (base + n) = shiftResult n (List.map (Token.shift n)) (tokenizeAt source base) := by
  rw [tokenizeAt, ← Cursor.shift_ofSource, Cursor.tokens_shift, tokenizeAt]
  cases (Cursor.ofSource source base).tokens with
  | error e => rfl
  | ok r =>
    obtain ⟨ts, stop⟩ := r
    have hend : (ts ++ [endToken stop]).map (Token.shift n) = ts.map (Token.shift n) ++ [endToken (stop + n)] :=
      List.map_append
    exact congrArg Except.ok hend.symm

/-- Parameters are read in the same way wherever they stand. -/
theorem parseAt_add (source : String) (base n : Nat) :
    parseAt source (base + n) = shiftResult n (Option.map (shift n)) (parseAt source base) := by
  rw [parseAt, ← Cursor.shift_ofSource, Cursor.tokens_shift, parseAt]
  cases (Cursor.ofSource source base).tokens with
  | error e => rfl
  | ok r =>
    obtain ⟨ts, stop⟩ := r
    rw [shiftResult_eq_relocate n (Option.map (shift n))]
    exact map_ofItems_items_mapSpan (keepsJoins_shift n) rfl ts

theorem parseEach_add (source : String) (base n k : Nat) :
    parseEach source (base + n) k = shiftResult n (List.map (shiftResult n (shift n))) (parseEach source base k) := by
  rw [parseEach, ← Cursor.shift_ofSource, Cursor.tokens_shift, parseEach]
  cases (Cursor.ofSource source base).tokens with
  | error e => rfl
  | ok r =>
    obtain ⟨ts, stop⟩ := r
    have hmove : shiftResult n (shift n) = relocate (Span.shift n) (shift n) :=
      funext (shiftResult_eq_relocate n (shift n))
    rw [hmove]
    exact congrArg Except.ok (Reader.expressions_mapSpan (keepsJoins_shift n) rfl k ts)

/-- Where a text stands has no say in what is read of it. With the text at `base`, its tokens, its expression, and the
answers to any number of steps in a row, whether they give tokens or expressions and whatever failed before, are those
for the text at the start of a template, with all places in them moved by `base` bytes and nothing else changed. -/
theorem answers_at_base (source : String) (base n : Nat) :
    tokenizeAt source base = shiftResult base (List.map (Token.shift base)) (tokenizeAt source 0) ∧
    parseAt source base = shiftResult base (Option.map (shift base)) (parseAt source 0) ∧
    (Cursor.ofSource source base).run n =
      ((Cursor.ofSource source 0).run n).map (shiftResult base (Token.shift base)) ∧
    parseEach source base n = shiftResult base (List.map (shiftResult base (shift base))) (parseEach source 0 n) := by
  have hrun := Cursor.run_shift (n := base) n (Cursor.ofSource source 0)
  rw [Cursor.shift_ofSource] at hrun
  have htokens := tokenizeAt_add source 0 base
  have hparse := parseAt_add source 0 base
  have heach := parseEach_add source 0 base n
  rw [Nat.zero_add] at hrun htokens hparse heach
  exact ⟨htokens, hparse, hrun, heach⟩

end Expr

end TemplateSyntax
