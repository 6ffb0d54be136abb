import TemplateSyntax.Expr.Parse
import TemplateSyntax.Proofs.Expr.Grammar
import TemplateSyntax.Proofs.Expr.Spelling
import TemplateSyntax.Proofs.Markup.Closing

/-!
# Brackets in balance

The tokens of a text that closes what it opens have as many opening brackets as closing ones (`balance_tokens`); the
kinds of the brackets may differ. A reader uses brackets in pairs, so it can lack a closing bracket at the end of the
tokens only if there are more opening ones (`balanced_expression`). Hence nothing that such a text can have wrong is an
open string or bracket.
-/

namespace TemplateSyntax.Expr

open Markup (Closes Nesting delimiters notMem_delimiters notMem_delimiters_of_text closes_append_iff)
open Text (isBlank)

/-! ### Faults -/

/-- The text ends inside a string or a group. -/
def Fault.isUnclosed : Fault → Bool
  | .unclosedQuote _ | .unclosed _ => true
  | _ => false

private theorem prefix_of_prefix_append {l front rest : List Char} (h : l <+: front ++ rest)
    (hlength : l.length ≤ front.length) : l <+: front :=
  List.prefix_of_prefix_length_le h (List.prefix_append ..) hlength

/-- No other message begins in this way. -/
theorem Fault.isUnclosed_of_message {fault : Fault} (h : "Unclosed".toList <+: fault.message.toList) :
    fault.isUnclosed = true := by
  cases fault with
  | unclosedQuote | unclosed => rfl
  | missingOperand =>
    unfold Fault.message at h
    rw [String.toList_append] at h
    exact absurd (prefix_of_prefix_append h (by decide)) (by decide)
  | unexpectedCharacter | unexpectedToken | missingCloser | missingSeparator =>
    unfold Fault.message at h
    rw [String.toList_append, String.toList_append, List.append_assoc] at h
    exact absurd (prefix_of_prefix_append h (by decide)) (by decide)
  | _ => exact absurd h (by decide)

/-! ### Brackets of a token list -/

def TokenKind.weight : TokenKind → Int
  | .punctuator .parenOpen | .punctuator .bracketOpen | .punctuator .braceOpen => 1
  | .punctuator .parenClose | .punctuator .bracketClose | .punctuator .braceClose => -1
  | _ => 0

/-- How many more brackets open than close. -/
def balance : List Token → Int
  | [] => 0
  | t :: ts => balance ts + t.kind.weight

theorem balance_cons {t : Token} {kind : TokenKind} (hk : t.kind = kind) (ts : List Token) :
    balance (t :: ts) = balance ts + kind.weight := by
  rw [balance, hk]

theorem balance_flat {t : Token} {kind : TokenKind} (hk : t.kind = kind) (hflat : kind.weight = 0) (ts : List Token) :
    balance (t :: ts) = balance ts := by
  rw [balance_cons hk, hflat, Int.add_zero]

/-! ### Reading tokens of a closed text -/

section Reading

variable {c : Char} {cs : List Char} {depth : Nat}

theorem notMem_delimiters_of_isBlank (h : isBlank c = true) : c ∉ delimiters :=
  notMem_delimiters (by decide) h

theorem notMem_delimiters_of_isNamePart (h : isNamePart c = true) : c ∉ delimiters :=
  notMem_delimiters (by decide +kernel) h

theorem notMem_delimiters_of_isDigit (h : c.isDigit = true) : c ∉ delimiters :=
  notMem_delimiters (by decide) h

theorem Numeral.Proper.notMem_delimiters {n : Numeral} (h : n.Proper) : ∀ c ∈ n.chars, c ∉ delimiters := by
  intro c hc
  rw [Numeral.chars, List.mem_append, List.mem_append] at hc
  obtain (hc | hc) | hc := hc
  · exact notMem_delimiters_of_isDigit (h.whole c hc)
  · cases hfraction : n.fraction with
    | none =>
      rw [hfraction] at hc
      cases hc
    | some ds =>
      rw [hfraction] at hc
      rcases List.mem_cons.mp hc with rfl | hc
      · decide
      · exact notMem_delimiters_of_isDigit (h.fraction ds hfraction c hc)
  · cases hexponent : n.exponent with
    | none =>
      rw [hexponent] at hc
      cases hc
    | some e =>
      have he := h.exponent e hexponent
      rw [hexponent] at hc
      change c ∈ e.mark :: e.sign.toList ++ e.digits at hc
      rw [List.cons_append, List.mem_cons, List.mem_append, Option.mem_toList] at hc
      obtain rfl | hsign | hdigits := hc
      · rcases he.mark with hmark | hmark <;> rw [hmark] <;> decide
      · rcases he.sign c hsign with rfl | rfl <;> decide
      · exact notMem_delimiters_of_isDigit (he.digits c hdigits)

/-- A string that is closed has its closing quote, and what follows it is closed. -/
theorem exists_rest_of_closes {q : Char} (hq : Markup.isQuote q = true) (h : Closes (.quoted q depth) cs) :
    ∃ rest, (stringBody q cs).rest = some rest ∧ Closes (.plain depth) rest := by
  have hescape : q ≠ '\\' := by
    rintro rfl
    cases hq
  induction cs using stringBody.induct q with
  | case1 => cases h
  | case2 cs =>
    obtain ⟨nesting, hstep, h⟩ := h
    rw [Nesting.step, if_neg hescape, if_pos rfl] at hstep
    cases hstep
    refine ⟨cs, ?_, h⟩
    rw [stringBody.eq_def]
    simp
  | case3 hne =>
    obtain ⟨nesting, hstep, h⟩ := h
    cases hstep
    cases h
  | case4 d cs hne ih =>
    obtain ⟨nesting, hstep, nesting', hstep', h⟩ := h
    cases hstep
    cases hstep'
    rw [stringBody_escape hne]
    exact ih h
  | case5 c cs hne hb ih =>
    obtain ⟨nesting, hstep, h⟩ := h
    rw [Nesting.step, if_neg hb, if_neg hne] at hstep
    cases hstep
    rw [stringBody_plain hne hb]
    exact ih h

/-- A punctuator changes the depth by its weight. -/
theorem closes_of_punctuator {p : Punctuator} {rest : List Char} (h : Closes (.plain depth) (p.text ++ rest)) :
    ∃ depth' : Nat, (depth' : Int) = depth + (TokenKind.punctuator p).weight ∧ Closes (.plain depth') rest := by
  cases p with
  | parenOpen | bracketOpen | braceOpen =>
    obtain ⟨nesting, hstep, h⟩ := h
    cases hstep
    exact ⟨depth + 1, rfl, h⟩
  | parenClose | bracketClose | braceClose =>
    obtain ⟨nesting, hstep, h⟩ := h
    cases depth with
    | zero => cases hstep
    | succ depth =>
      cases hstep
      exact ⟨depth, (Int.add_neg_cancel_right ↑depth 1).symm, h⟩
  | _ => exact ⟨depth, (Int.add_zero ↑depth).symm, (closes_append_iff (notMem_delimiters_of_text (by decide))).mp h⟩

theorem isUnclosed_of_readNumber {fault : Fault} (h : (readNumber cs).result = .error fault) :
    fault.isUnclosed = false := by
  have hfollow {n : Numeral} {rest : List Char} (h : (n.reading rest).result = .error fault) :
      fault.isUnclosed = false := by
    cases rest with
    | nil => cases h
    | cons d rest =>
      unfold Numeral.reading followFault? at h
      dsimp only at h
      split at h
      · next hfault =>
        cases h
        split at hfault
        · cases hfault
          rfl
        · split at hfault <;> cases hfault
          rfl
      · cases h
  unfold readNumber at h
  split at h
  · exact hfollow h
  · exact hfollow h
  · cases h
    rfl

/-- Behind the token the rest closes what is open, the brackets of the token counted. -/
def Reading.KeepsClosed (depth : Nat) (r : Reading) : Prop :=
  match r.result with
  | .ok kind => ∃ depth' : Nat, (depth' : Int) = depth + kind.weight ∧ Closes (.plain depth') r.rest
  | .error fault => fault.isUnclosed = false

theorem keepsClosed_readNumber (hc : c.isDigit = true ∨ c = '.' ∧ cs.head?.any Char.isDigit = true)
    (h : Closes (.plain depth) (c :: cs)) : (readNumber (c :: cs)).KeepsClosed depth := by
  unfold Reading.KeepsClosed
  split
  · next kind hok =>
    obtain ⟨n, hn, hused, rfl⟩ := exists_proper_of_readNumber hc hok
    rw [← append_readNumber (c :: cs), hused, closes_append_iff hn.notMem_delimiters] at h
    exact ⟨depth, (Int.add_zero ↑depth).symm, h⟩
  · next fault herror => exact isUnclosed_of_readNumber herror

theorem keepsClosed_readString (hc : Markup.isQuote c = true) (h : Closes (.plain depth) (c :: cs)) :
    (readString c cs).KeepsClosed depth := by
  obtain ⟨nesting, hstep, h⟩ := h
  have hopens : Nesting.step c (.plain depth) = some (.quoted c depth) := by
    simp [Nesting.step, hc]
  rw [hopens] at hstep
  cases hstep
  obtain ⟨rest, hrest, h⟩ := exists_rest_of_closes hc h
  unfold readString
  dsimp only
  rw [hrest]
  exact ⟨depth, (Int.add_zero ↑depth).symm, h⟩

theorem keepsClosed_readName (h : Closes (.plain depth) cs) : (readName cs).KeepsClosed depth := by
  have hparts : ∀ d ∈ cs.takeWhile isNamePart, d ∉ delimiters := fun d hd =>
    notMem_delimiters_of_isNamePart (List.mem_takeWhile_imp hd)
  rw [← List.takeWhile_append_dropWhile (p := isNamePart) (l := cs), closes_append_iff hparts] at h
  exact ⟨depth, (Int.add_zero ↑depth).symm, h⟩

theorem keepsClosed_readPunctuator (h : Closes (.plain depth) (c :: cs)) : (readPunctuator c cs).KeepsClosed depth := by
  unfold readPunctuator
  split
  · next p rest hmatch =>
    rw [Text.append_of_firstMatch hmatch] at h
    exact closes_of_punctuator h
  · rfl

theorem keepsClosed_readToken {afterOperand : Bool} (h : Closes (.plain depth) (c :: cs)) :
    (readToken afterOperand c cs).KeepsClosed depth := by
  unfold readToken
  split
  · next hstart => exact keepsClosed_readNumber (isDigit_or_of_startsNumber hstart) h
  split
  · next hquote => exact keepsClosed_readString (by simpa [Markup.isQuote] using hquote) h
  split
  · exact keepsClosed_readName h
  · exact keepsClosed_readPunctuator h

end Reading

namespace Cursor

theorem closes_next {cur : Cursor} {depth : Nat} (h : Closes (.plain depth) cur.rest) :
    match cur.next with
    | (.ok t, cur') => ∃ depth' : Nat, (depth' : Int) = depth + t.kind.weight ∧ Closes (.plain depth') cur'.rest ∧
        (t.kind = .eof → cur'.rest = [])
    | (.error e, _) => e.fault.isUnclosed = false := by
  have hblanks : ∀ c ∈ cur.rest.takeWhile isBlank, c ∉ delimiters := fun c hc =>
    notMem_delimiters_of_isBlank (List.mem_takeWhile_imp hc)
  rw [← List.takeWhile_append_dropWhile (p := isBlank) (l := cur.rest), closes_append_iff hblanks] at h
  cases hrest : cur.rest.dropWhile isBlank with
  | nil =>
    rw [hrest] at h
    unfold next
    rw [hrest]
    exact ⟨depth, (Int.add_zero ↑depth).symm, h, fun _ => rfl⟩
  | cons c cs =>
    rw [hrest] at h
    have hkeeps : (readToken cur.afterOperand c cs).KeepsClosed depth := keepsClosed_readToken h
    unfold Reading.KeepsClosed at hkeeps
    unfold next Reading.answer
    rw [hrest]
    dsimp only
    cases hresult : (readToken cur.afterOperand c cs).result with
    | ok kind =>
      rw [hresult] at hkeeps
      obtain ⟨depth', hdepth, hcloses⟩ := hkeeps
      exact ⟨depth', hdepth, hcloses, fun heof => absurd heof (kind_ne_eof_of_readToken hresult)⟩
    | error fault =>
      rw [hresult] at hkeeps
      exact hkeeps

/-- The tokens of a text that closes what it opens are in balance, and no string of it is open. -/
theorem balance_tokens {cur : Cursor} {depth : Nat} (h : Closes (.plain depth) cur.rest) :
    match cur.tokens with
    | .ok (ts, _) => depth + balance ts = 0
    | .error e => e.fault.isUnclosed = false := by
  induction hn : cur.rest.length using Nat.strongRecOn generalizing cur depth with
  | ind n ih =>
    have hcloses := closes_next h
    rw [tokens_eq]
    cases hnext : cur.next with
    | mk result cur' =>
      rw [hnext] at hcloses
      cases result with
      | error e => exact hcloses
      | ok t =>
        obtain ⟨depth', hdepth, hcloses, heof⟩ := hcloses
        dsimp only
        by_cases ht : t.kind = .eof
        · rw [if_pos ht]
          rw [heof ht] at hcloses
          cases hcloses
          rw [ht] at hdepth
          exact hdepth.symm
        · rw [if_neg ht]
          have htail := ih cur'.rest.length (hn ▸ length_lt_of_next hnext ht) hcloses rfl
          cases htokens : cur'.tokens with
          | error e =>
            rw [htokens] at htail
            exact htail
          | ok r =>
            rw [htokens] at htail
            dsimp only at htail ⊢
            rw [balance_cons rfl]
            omega

end Cursor

/-! ### Reading groups -/

namespace Outcome

variable {α β : Type} {m n : Nat} {j k : Int}

/-- A success leaves tokens with the balance `k`; a closing bracket is lacking only if that is positive. -/
def Balanced (k : Int) : Outcome α n → Prop
  | .ok _ rest _ => balance rest = k
  | .error e _ _ => e.fault.isUnclosed = true → 0 < k

theorem Balanced.bind {o : Outcome α m} {h : m ≤ n} {f : (a : α) → (rest : List Token) → rest.length < m → Outcome β n}
    (ho : o.Balanced j) (hjk : j ≤ k) (hf : ∀ a rest used, balance rest = j → (f a rest used).Balanced k) :
    (o.bind h f).Balanced k := by
  cases o with
  | ok a rest used => exact hf a rest used ho
  | error e rest kept => exact fun hunclosed => Int.lt_of_lt_of_le (ho hunclosed) hjk

theorem balanced_error {e : ExprError} {rest : List Token} {kept : rest.length ≤ n} (he : e.fault.isUnclosed = false) :
    (Outcome.error (α := α) e rest kept).Balanced k := by
  intro hunclosed
  rw [he] at hunclosed
  cases hunclosed

theorem balanced_map {f : α → β} {o : Outcome α n} : (o.map f).Balanced k ↔ o.Balanced k := by
  cases o <;> rfl

theorem balanced_widen {h : m ≤ n} {o : Outcome α m} : (o.widen h).Balanced k ↔ o.Balanced k := by
  cases o <;> rfl

end Outcome

namespace Reader

open Outcome

theorem weight_closer (b : Bracket) : (TokenKind.punctuator b.closer).weight = -1 := by
  cases b <;> rfl

theorem balance_closer {b : Bracket} {t : Token} (h : t.is b.closer = true) (ts : List Token) :
    balance ts = balance (t :: ts) + 1 := by
  rw [balance_cons (Token.is_iff.mp h), weight_closer]
  omega

theorem weight_of_infix? {kind : TokenKind} {op : InfixOp} (h : kind.infix? = some op) : kind.weight = 0 := by
  cases kind with
  | punctuator p => cases p <;> first | rfl | cases h
  | _ => rfl

theorem weight_of_unary? {kind : TokenKind} {op : UnaryOp} (h : kind.unary? = some op) : kind.weight = 0 := by
  cases kind with
  | punctuator p => cases p <;> first | rfl | cases h
  | _ => rfl

theorem weight_of_update? {kind : TokenKind} {op : UpdateOp} (h : kind.update? = some op) : kind.weight = 0 := by
  cases kind with
  | punctuator p => cases p <;> first | rfl | cases h
  | _ => rfl

theorem fault_of_join? {op : InfixOp} {left right : Expr} {e : ExprError} (h : join? op left right = .error e) :
    e.fault = .assignTarget := by
  unfold join? at h
  split at h
  · cases h
    rfl
  · cases h

theorem fault_of_release {op : InfixOp} {held : Held} {right : Expr} {e : ExprError}
    (h : release op held right = .error e) : e.fault = .assignTarget := by
  induction held generalizing right with
  | nil => cases h
  | cons first held ih =>
    unfold release at h
    split at h
    · split at h
      · next hjoin =>
        cases h
        exact fault_of_join? hjoin
      · exact ih h
    · cases h

theorem fault_of_releaseAll {held : Held} {right : Expr} {e : ExprError} (h : releaseAll held right = .error e) :
    e.fault = .assignTarget := by
  induction held generalizing right with
  | nil => cases h
  | cons first held ih =>
    unfold releaseAll at h
    split at h
    · next hjoin =>
      cases h
      exact fault_of_join? hjoin
    · exact ih h

/-- All that can be wrong with a chain of operands is the target of an assignment. -/
theorem fault_of_resolve {held : Held} {operand : Expr} {links : List (InfixOp × Expr)} {e : ExprError}
    (h : resolve held operand links = .error e) : e.fault = .assignTarget := by
  induction links generalizing held operand with
  | nil => exact fault_of_releaseAll h
  | cons link links ih =>
    unfold resolve at h
    split at h
    · next hrelease =>
      cases h
      exact fault_of_release hrelease
    · exact ih h

/-- Behind the opening bracket of a group one more bracket closes than in front of it. -/
theorem balanced_closing (b : Bracket) (opener : Span) (ts : List Token) :
    (closing b opener ts).Balanced (balance ts + 1) := by
  cases ts with
  | nil => exact fun _ => Int.one_pos
  | cons t ts =>
    rw [closing]
    split
    · next hc => exact balance_closer hc ts
    · exact balanced_error rfl

section Readers

variable {stop n : Nat} {item : Reader Expr} (hitem : ∀ ts, ts.length < n → (item ts).Balanced (balance ts))

include hitem

theorem balanced_elements (b : Bracket) (opener : Span) (ts : List Token) (hn : ts.length < n) :
    (elements item b opener ts).Balanced (balance ts + 1) := by
  match ts, hn with
  | [], _ =>
    rw [elements]
    exact fun _ => Int.one_pos
  | t :: ts, hn =>
    rw [elements]
    split
    · next hc => exact balance_closer hc ts
    · refine (hitem (t :: ts) hn).bind (by omega) fun x rest h hrest => ?_
      rw [← hrest]
      cases rest with
      | nil => exact fun _ => Int.one_pos
      | cons sep rest =>
        have hlt : rest.length < (t :: ts).length := Nat.lt_of_succ_lt h
        dsimp only
        split
        · next hcomma =>
          rw [balance_flat (Token.is_iff.mp hcomma) rfl, balanced_widen, balanced_map]
          exact balanced_elements b opener rest (Nat.lt_trans hlt hn)
        · split
          · next hc => exact balance_closer hc rest
          · exact balanced_error rfl
termination_by ts.length
decreasing_by exact hlt

theorem balanced_entries (opener : Span) (ts : List Token) (hn : ts.length < n) :
    (entries item opener ts).Balanced (balance ts + 1) := by
  rw [entries]
  refine (hitem ts hn).bind (by omega) fun key rest h hrest => ?_
  rw [← hrest]
  cases rest with
  | nil => exact fun _ => Int.one_pos
  | cons colon rest =>
    have hlt : rest.length < ts.length := Nat.lt_of_succ_lt h
    dsimp only
    split
    · next hcolon =>
      rw [balance_flat (Token.is_iff.mp hcolon) rfl]
      refine (hitem rest (Nat.lt_trans hlt hn)).bind (by omega) fun value rest' h' hrest' => ?_
      rw [← hrest']
      cases rest' with
      | nil => exact fun _ => Int.one_pos
      | cons sep rest' =>
        have hlt' : rest'.length < ts.length := Nat.lt_trans (Nat.lt_of_succ_lt h') hlt
        dsimp only
        split
        · next hcomma =>
          rw [balance_flat (Token.is_iff.mp hcomma) rfl, balanced_widen, balanced_map]
          exact balanced_entries opener rest' (Nat.lt_trans hlt' hn)
        · split
          · next hc => exact balance_closer (b := .brace) hc rest'
          · exact balanced_error rfl
    · exact balanced_error rfl
termination_by ts.length
decreasing_by exact hlt'

theorem balanced_mapBody (opener : Span) (ts : List Token) (hn : ts.length < n) :
    (mapBody item opener ts).Balanced (balance ts + 1) := by
  cases ts with
  | nil => exact balanced_entries hitem opener [] hn
  | cons t ts =>
    rw [mapBody]
    split
    · next hc => exact balance_closer (b := .brace) hc ts
    · exact balanced_entries hitem opener (t :: ts) hn

theorem balanced_primary (ts : List Token) (hn : ts.length ≤ n) :
    (primary stop item ts).Balanced (balance ts) := by
  cases ts with
  | nil => exact balanced_error rfl
  | cons t ts =>
    have hlt : ts.length < n := hn
    rw [primary]
    split
    · next hk => exact (balance_flat hk rfl ts).symm
    · next hk => exact (balance_flat hk rfl ts).symm
    · next hk => exact (balance_flat hk rfl ts).symm
    · next hk =>
      rw [balance_cons hk, balanced_widen, balanced_map]
      exact balanced_elements hitem .square t.span ts hlt
    · next hk =>
      rw [balance_cons hk, balanced_widen, balanced_map]
      exact balanced_mapBody hitem t.span ts hlt
    · next hk =>
      rw [balance_cons hk]
      refine (hitem ts hlt).bind (Int.le_add_one (Int.le_refl _)) fun e rest h hrest => ?_
      rw [← hrest, balanced_widen, balanced_map]
      exact balanced_closing .paren t.span rest
    · exact balanced_error rfl

theorem balanced_suffix? {e : Expr} {ts : List Token} (hn : ts.length ≤ n) {o : Outcome Expr ts.length}
    (ho : suffix? stop item e ts = some o) : o.Balanced (balance ts) := by
  cases ts with
  | nil => cases ho
  | cons t ts =>
    have hlt : ts.length < n := hn
    unfold suffix? at ho
    dsimp only at ho
    split at ho
    · next hk =>
      rw [balance_flat hk rfl]
      split at ho
      · cases ho
        exact (balance_flat rfl rfl _).symm
      · cases ho
        exact balanced_error rfl
    · next hk =>
      cases ho
      rw [balance_cons hk]
      refine (hitem ts hlt).bind (Int.le_add_one (Int.le_refl _)) fun key rest h hrest => ?_
      rw [← hrest, balanced_widen, balanced_map]
      exact balanced_closing .square t.span rest
    · next hk =>
      cases ho
      rw [balance_cons hk, balanced_widen, balanced_map]
      exact balanced_elements hitem .paren t.span ts hlt
    · obtain ⟨op, hop, rfl⟩ := Option.map_eq_some_iff.mp ho
      split
      · exact (balance_flat rfl (weight_of_update? hop) ts).symm
      · exact balanced_error rfl

theorem balanced_suffixes {m : Nat} (e : Expr) (ts : List Token) (h : ts.length < m) (hn : ts.length ≤ n) :
    (suffixes stop item e ts h).Balanced (balance ts) := by
  rw [suffixes]
  split
  · rfl
  · next o ho =>
    refine (balanced_suffix? hitem hn ho).bind (Int.le_refl _) fun e rest h' hrest => ?_
    rw [← hrest]
    exact balanced_suffixes e rest _ (Nat.le_trans (Nat.le_of_lt h') hn)
termination_by ts.length
decreasing_by exact h'

theorem balanced_operand (ts : List Token) (hn : ts.length ≤ n) :
    (operand stop item ts).Balanced (balance ts) := by
  refine (balanced_primary hitem ts hn).bind (Int.le_refl _) fun e rest h hrest => ?_
  rw [← hrest]
  exact balanced_suffixes hitem e rest h (Nat.le_trans (Nat.le_of_lt h) hn)

theorem balanced_unary (ts : List Token) (hn : ts.length ≤ n) : (unary stop item ts).Balanced (balance ts) := by
  induction ts with
  | nil => exact balanced_operand hitem [] hn
  | cons t ts ih =>
    have hle : ts.length ≤ n := Nat.le_trans (Nat.le_succ _) hn
    unfold unary
    split
    · next op _ hop =>
      rw [balance_flat rfl (weight_of_unary? hop)]
      exact (ih hle).bind (Int.le_refl _) fun e rest h hrest => hrest
    · next op _ hop =>
      rw [balance_flat rfl (weight_of_update? hop)]
      refine (ih hle).bind (Int.le_refl _) fun e rest h hrest => ?_
      split
      · exact hrest
      · exact balanced_error rfl
    · exact balanced_operand hitem (t :: ts) hn

theorem balanced_chain {m : Nat} (ts : List Token) (h : ts.length < m) (hn : ts.length ≤ n) :
    (chain stop item ts h).Balanced (balance ts) := by
  match ts, h, hn with
  | [], _, _ =>
    rw [chain]
    rfl
  | t :: ts, h, hn =>
    rw [chain]
    split
    · rfl
    · next op hop =>
      split
      · exact balanced_error rfl
      · rw [balance_flat rfl (weight_of_infix? hop)]
        refine (balanced_unary hitem ts (Nat.le_of_lt hn)).bind (Int.le_refl _) fun e rest h' hrest => ?_
        have hlt : rest.length < (t :: ts).length := Nat.lt_succ_of_lt h'
        rw [← hrest, balanced_map]
        exact balanced_chain rest _ (Nat.le_of_lt (Nat.lt_of_lt_of_le hlt hn))
termination_by ts.length
decreasing_by exact hlt

theorem balanced_expressionOver (ts : List Token) (hn : ts.length ≤ n) :
    (expressionOver stop item ts).Balanced (balance ts) := by
  refine (balanced_unary hitem ts hn).bind (Int.le_refl _) fun first rest h hrest => ?_
  rw [← hrest]
  refine (balanced_chain hitem rest h (Nat.le_trans (Nat.le_of_lt h) hn)).bind (Int.le_refl _)
    fun links rest' h' hrest' => ?_
  split
  · exact hrest'
  · next e hresolve =>
    intro hunclosed
    rw [fault_of_resolve hresolve] at hunclosed
    cases hunclosed

end Readers

/-- An expression lacks a closing bracket only if more brackets open than close. -/
theorem balanced_expression (stop : Nat) (ts : List Token) : (expression stop ts).Balanced (balance ts) := by
  have hwithin (depth : Nat) (ts : List Token) : (expressionWithin stop depth ts).Balanced (balance ts) := by
    induction depth generalizing ts with
    | zero => exact balanced_error rfl
    | succ depth ih => exact balanced_expressionOver (fun us _ => ih us) ts (Nat.le_refl _)
  exact hwithin ts.length ts

theorem balance_of_items {stop : Nat} {ts : List Token} {e : ExprError} (h : items stop ts = .error e)
    (hunclosed : e.fault.isUnclosed = true) : 0 < balance ts := by
  induction hn : ts.length using Nat.strongRecOn generalizing ts with
  | ind n ih =>
    cases ts with
    | nil =>
      rw [items] at h
      cases h
    | cons t ts =>
      rw [items] at h
      split at h
      · next hseparator =>
        have hflat : balance (t :: ts) = balance ts := by
          rcases Bool.or_eq_true_iff.mp hseparator with hp | hp
          · exact balance_flat (Token.is_iff.mp hp) rfl ts
          · exact balance_flat (Token.is_iff.mp hp) rfl ts
        rw [hflat]
        exact ih ts.length (hn ▸ Nat.lt_succ_self _) h rfl
      · have hfirst := balanced_expression stop (t :: ts)
        split at h
        · next heq =>
          rw [heq] at hfirst
          cases h
          exact hfirst hunclosed
        · next rest used heq =>
          rw [heq] at hfirst
          split at h
          · next hrest =>
            cases h
            rw [← show balance rest = balance (t :: ts) from hfirst]
            exact ih rest.length (hn ▸ used) hrest rfl
          · cases h

end Reader

/-- A text that closes what it opens has no open string and no open bracket when it is read as expressions, though its
brackets may be of different kinds. -/
theorem isUnclosed_of_parseAt {source : String} {base : Nat} {e : ExprError} (hcloses : Closes (.plain 0) source.toList)
    (h : parseAt source base = .error e) : e.fault.isUnclosed = false := by
  have hrest : Closes (.plain 0) (Cursor.ofSource source base).rest := hcloses
  have hbalance := Cursor.balance_tokens hrest
  rcases parseAt_eq_error h with htokens | ⟨ts, stop, htokens, hitems⟩
  · rw [htokens] at hbalance
    exact hbalance
  · rw [htokens] at hbalance
    dsimp only at hbalance
    rw [← Bool.not_eq_true]
    intro hunclosed
    have hpos := Reader.balance_of_items hitems hunclosed
    omega

end TemplateSyntax.Expr
