import TemplateSyntax.Proofs.Expr.WellFormed

/-!
# Printing expressions

An expression is printed as a list of words, each part of it in parentheses. The words are legible: no two of them run
together when they are written one after the other, so the printed text falls into just these words
(`Legible.exists_tokens`). The grammar derives the same expression of them again, at other places
(`Simple.exists_derives`). Hence the expressions that are read are the well-formed ones, each of them from its own
printed text.
-/

namespace TemplateSyntax

/-! ### Operators as punctuation -/

def InfixOp.punctuator : InfixOp → Expr.Punctuator
  | .assign .set => .eq
  | .assign .add => .plusEq
  | .assign .sub => .minusEq
  | .assign .mul => .starEq
  | .assign .div => .slashEq
  | .assign .mod => .percentEq
  | .logical .and => .and
  | .logical .or => .or
  | .binary .add => .plus
  | .binary .sub => .minus
  | .binary .mul => .star
  | .binary .div => .slash
  | .binary .mod => .percent
  | .binary .eq => .eqEq
  | .binary .ne => .notEq
  | .binary .lt => .lt
  | .binary .gt => .gt
  | .binary .le => .ltEq
  | .binary .ge => .gtEq
  | .builtIn => .question

def UnaryOp.punctuator : UnaryOp → Expr.Punctuator
  | .not => .not
  | .minus => .minus
  | .plus => .plus

def UpdateOp.punctuator : UpdateOp → Expr.Punctuator
  | .increment => .plusPlus
  | .decrement => .minusMinus

namespace Expr

theorem infix?_punctuator (op : InfixOp) : op.punctuator.infix? = some op := by
  rcases op with o | o | o | _ <;> (try cases o) <;> rfl

theorem unary?_punctuator (op : UnaryOp) : op.punctuator.unary? = some op := by
  cases op <;> rfl

theorem update?_punctuator (op : UpdateOp) : op.punctuator.update? = some op := by
  cases op <;> rfl

/-! ### Words -/

/-- A token without its place. -/
structure Word where
  kind : TokenKind
  text : String

def Token.word (t : Token) : Word :=
  ⟨t.kind, t.text⟩

namespace Word

def mark (p : Punctuator) : Word :=
  ⟨.punctuator p, String.ofList p.text⟩

def name (n : String) : Word :=
  ⟨.identifier n, n⟩

/-- What is written behind the word: a blank behind a comma. -/
def gap (w : Word) : List Char :=
  if w.kind = .punctuator .comma then [' '] else []

def spell (ws : List Word) : List Char :=
  ws.flatMap fun w => w.text.toList ++ w.gap

/-- The word is a punctuator as it is written, or an operand that its text is read as. -/
inductive Proper : Word → Prop
  | mark (p : Punctuator) : Proper (mark p)
  | operand {kind : TokenKind} {text : String} (hkind : kind.isOperand = true) (h : Lexes text kind) :
      Proper ⟨kind, text⟩

/-- The word is read as itself behind a token that ended an operand, or did not: a period behind an operand only, and
an operand not behind another. -/
structure Fits (w : Word) (afterOperand : Bool) : Prop where
  dot : w.kind = .punctuator .dot → afterOperand = true
  operand : w.kind.isOperand = true → afterOperand = false

end Word

namespace Punctuator

/-- The punctuator is neither part of a longer one nor of a number. -/
def isDelimiter : Punctuator → Bool
  | .parenOpen | .parenClose | .bracketOpen | .bracketClose | .braceOpen | .braceClose | .comma | .colon => true
  | _ => false

/-- The punctuator is read as itself whatever follows it. -/
def standsAlone (p : Punctuator) : Bool :=
  p.isDelimiter || p == .dot

end Punctuator

namespace TokenKind

def isDelimiter : TokenKind → Bool
  | .punctuator p => p.isDelimiter
  | _ => false

def standsAlone : TokenKind → Bool
  | .punctuator p => p.standsAlone
  | _ => false

theorem isDelimiter_iff {kind : TokenKind} :
    kind.isDelimiter = true ↔ ∃ p : Punctuator, kind = .punctuator p ∧ p.isDelimiter = true := by
  cases kind <;> simp [isDelimiter]

theorem standsAlone_iff {kind : TokenKind} :
    kind.standsAlone = true ↔ ∃ p : Punctuator, kind = .punctuator p ∧ p.standsAlone = true := by
  cases kind <;> simp [standsAlone]

end TokenKind

/-- Each word is read as itself in front of those behind it. -/
inductive Legible : (afterOperand : Bool) → List Word → Prop
  | nil {afterOperand : Bool} : Legible afterOperand []
  | cons {afterOperand : Bool} {w : Word} {ws : List Word} (hw : w.Proper) (hfits : w.Fits afterOperand)
      (hnext : w.kind.standsAlone = true ∨ ∀ v ∈ ws.head?, v.kind.isDelimiter = true)
      (hws : Legible w.kind.endsOperand ws) : Legible afterOperand (w :: ws)

/-! ### The words of an expression -/

def enclosed (b : Bracket) (ws : List Word) : List Word :=
  .mark b.opener :: ws ++ [.mark b.closer]

def parens (ws : List Word) : List Word :=
  enclosed .paren ws

/-- The lists one after the other, with a comma between any two. -/
def separated : List (List Word) → List Word
  | [] => []
  | [ws] => ws
  | ws :: vs :: lists => ws ++ .mark .comma :: separated (vs :: lists)

mutual

/-- The words of the expression, with every part of it in parentheses. -/
@[simp] def words : Expr → List Word
  | .literal value raw _ => [⟨value.kind, raw⟩]
  | .identifier name _ => [.name name]
  | .field object name _ _ => parens object.words ++ [.mark .dot, .name name]
  | .index object key _ => parens object.words ++ enclosed .square (parens key.words)
  | .call callee arguments _ =>
    parens callee.words ++ enclosed .paren (separated ((listWords arguments).map parens))
  | .array elements _ => enclosed .square (separated ((listWords elements).map parens))
  | .map entries _ => enclosed .brace (separated (entriesWords entries))
  | .unary op argument _ => .mark op.punctuator :: parens argument.words
  | .update op argument true _ => .mark op.punctuator :: parens argument.words
  | .update op argument false _ => parens argument.words ++ [.mark op.punctuator]
  | .join op left right _ => parens left.words ++ .mark op.punctuator :: parens right.words
  | .compound items _ => separated (listWords items)

@[simp] def listWords : List Expr → List (List Word)
  | [] => []
  | e :: es => e.words :: listWords es

@[simp] def entriesWords : List (Expr × Expr) → List (List Word)
  | [] => []
  | (key, value) :: es => (parens key.words ++ .mark .colon :: parens value.words) :: entriesWords es

end

/-- The expression as a text. -/
def print (e : Expr) : String :=
  String.ofList (Word.spell e.words)

example : (Expr.join (.binary .add) (.identifier "a" ⟨0, 0⟩)
    (.call (.identifier "f" ⟨0, 0⟩) [.identifier "b" ⟨0, 0⟩, .literal .null "null" ⟨0, 0⟩] ⟨0, 0⟩) ⟨0, 0⟩).print =
      "(a)+((f)((b), (null)))" := by
  decide

theorem listWords_eq_map (es : List Expr) : listWords es = es.map words := by
  induction es with
  | nil => rfl
  | cons e es ih => rw [listWords, ih, List.map_cons]

theorem entriesWords_eq_map (es : List (Expr × Expr)) :
    entriesWords es = es.map fun p => parens p.1.words ++ .mark .colon :: parens p.2.words := by
  induction es with
  | nil => rfl
  | cons e es ih => rw [entriesWords, ih, List.map_cons]

/-! ### Words are read as tokens -/

/-- The text does not run together with a punctuator or an operand in front of it. -/
def Delimited (rest : List Char) : Prop :=
  ∃ p : Punctuator, p.isDelimiter = true ∧ ∃ r, rest = p.text ++ r

theorem Delimited.ends {rest : List Char} (h : Delimited rest) : Ends rest := by
  obtain ⟨p, hp, r, rfl⟩ := h
  intro c hc
  cases p <;> cases hp <;> cases hc <;> decide

private theorem text_first (p : Punctuator) :
    ∃ c cs, p.text = c :: cs ∧ isNameStart c = false ∧ c.isDigit = false ∧ ¬(c = '"' ∨ c = '\'') ∧
      Text.isBlank c = false ∧ (c = '.' → p = .dot) := by
  cases p <;> exact ⟨_, _, rfl, by decide, by decide, by decide, by decide, by decide⟩

theorem readPunctuator_append {p : Punctuator} {c : Char} {cs rest : List Char} (hp : p.text = c :: cs)
    (h : p.standsAlone = true ∨ rest = [] ∨ Delimited rest) :
    readPunctuator c (cs ++ rest) = ⟨p.text, rest, .ok (.punctuator p)⟩ := by
  rcases h with h | rfl | ⟨q, hq, r, rfl⟩
  · cases p <;> cases h <;> cases hp <;> rfl
  · cases p <;> cases hp <;> rfl
  · cases q <;> cases hq <;> cases p <;> cases hp <;> rfl

theorem readToken_mark {p : Punctuator} {afterOperand : Bool} (hfits : (Word.mark p).Fits afterOperand)
    {c : Char} {cs rest : List Char} (hp : p.text = c :: cs)
    (h : p.standsAlone = true ∨ rest = [] ∨ Delimited rest) :
    readToken afterOperand c (cs ++ rest) = ⟨p.text, rest, .ok (.punctuator p)⟩ := by
  obtain ⟨c', cs', hp', hname, hdigit, hquote, -, hdot⟩ := text_first p
  obtain ⟨rfl, rfl⟩ := List.cons.inj (hp.symm.trans hp')
  have hstart : startsNumber afterOperand c (cs ++ rest) = false := by
    rw [startsNumber, hdigit, Bool.false_or]
    by_cases hc : c = '.'
    · obtain rfl := hdot hc
      rw [hfits.dot rfl, Bool.not_true, Bool.and_false]
    · rw [beq_eq_false_iff_ne.mpr hc, Bool.false_and, Bool.false_and]
  rw [readToken, hstart, if_neg Bool.false_ne_true, if_neg hquote, hname, if_neg Bool.false_ne_true]
  exact readPunctuator_append hp h

/-- A word is read as itself in front of a text that does not run together with it. -/
theorem Word.Proper.readToken {w : Word} (h : w.Proper) {afterOperand : Bool} (hfits : w.Fits afterOperand)
    {rest : List Char} (hrest : w.kind.standsAlone = true ∨ rest = [] ∨ Delimited rest) :
    ∃ c cs, w.text.toList = c :: cs ∧ Text.isBlank c = false ∧
      Expr.readToken afterOperand c (cs ++ rest) = ⟨w.text.toList, rest, .ok w.kind⟩ := by
  cases h with
  | mark p =>
    obtain ⟨c, cs, hp, -, -, -, hblank, -⟩ := text_first p
    refine ⟨c, cs, by rw [Word.mark, String.toList_ofList, hp], hblank, ?_⟩
    rw [readToken_mark hfits hp hrest, Word.mark, String.toList_ofList]
  | @operand kind text hkind hlex =>
    obtain ⟨c, cs, htext, hblank, hread⟩ := readToken_of_lexes hlex
    obtain rfl : afterOperand = false := hfits.operand hkind
    have hends : Ends rest := by
      rcases hrest with hrest | rfl | hrest
      · obtain ⟨p, rfl, -⟩ := TokenKind.standsAlone_iff.mp hrest
        cases hkind
      · exact ends_nil
      · exact hrest.ends
    have hok : (Expr.readToken false c cs).result = .ok kind := by rw [hread]
    obtain ⟨ds, hused, happend⟩ := readToken_used_append hok hkind hends
    rw [hread] at hused
    obtain rfl : cs = ds := (List.cons.inj hused).2
    exact ⟨c, cs, htext, hblank, by rw [happend, htext]⟩

namespace Word

theorem spell_cons (w : Word) (ws : List Word) : spell (w :: ws) = w.text.toList ++ (w.gap ++ spell ws) := by
  rw [spell, List.flatMap_cons, List.append_assoc]
  rfl

theorem delimited_spell {w : Word} {ws : List Word} (hw : w.Proper) (h : w.kind.isDelimiter = true) :
    Delimited (spell (w :: ws)) := by
  obtain ⟨p, hkind, hp⟩ := TokenKind.isDelimiter_iff.mp h
  cases hw with
  | mark q =>
    cases hkind
    exact ⟨p, hp, _, by rw [spell_cons, Word.mark, String.toList_ofList]⟩
  | @operand kind text hoperand _ =>
    obtain rfl : kind = .punctuator p := hkind
    cases hoperand

end Word

theorem Legible.delimited {afterOperand : Bool} {ws : List Word} (h : Legible afterOperand ws)
    (hhead : ∀ v ∈ ws.head?, v.kind.isDelimiter = true) : Word.spell ws = [] ∨ Delimited (Word.spell ws) := by
  cases h with
  | nil => exact .inl rfl
  | cons hw => exact .inr (Word.delimited_spell hw (hhead _ rfl))

/-- A legible text falls into its words. -/
theorem Legible.exists_tokens {afterOperand : Bool} {ws : List Word} (h : Legible afterOperand ws) (offset : Nat) :
    ∃ ts stop, (⟨Word.spell ws, offset, afterOperand⟩ : Cursor).tokens = .ok (ts, stop) ∧ ts.map Token.word = ws := by
  induction h generalizing offset with
  | nil => exact ⟨[], offset, Cursor.tokens_nil .., rfl⟩
  | @cons afterOperand w ws hw hfits hnext hws ih =>
    have hrest : w.kind.standsAlone = true ∨ w.gap ++ Word.spell ws = [] ∨ Delimited (w.gap ++ Word.spell ws) := by
      rcases hnext with hnext | hnext
      · exact .inl hnext
      · by_cases hcomma : w.kind = .punctuator .comma
        · exact .inl (by rw [hcomma]; rfl)
        · rw [Word.gap, if_neg hcomma]
          exact .inr (hws.delimited hnext)
    obtain ⟨c, cs, htext, hblank, hread⟩ := hw.readToken hfits hrest
    -- a gap, if there is one, moves the tokens behind it
    have hgap : ∃ offset', (⟨w.gap ++ Word.spell ws, offset + Text.byteLength w.text.toList, w.kind.endsOperand⟩ : Cursor).tokens =
        (⟨Word.spell ws, offset', w.kind.endsOperand⟩ : Cursor).tokens := by
      unfold Word.gap
      split
      · exact ⟨_, Cursor.tokens_blank (by decide) ..⟩
      · exact ⟨_, rfl⟩
    obtain ⟨offset', hgap⟩ := hgap
    obtain ⟨ts, stop, hts, hwords⟩ := ih offset'
    refine ⟨⟨w.kind, w.text, ⟨offset, offset + Text.byteLength w.text.toList⟩⟩ :: ts, stop, ?_, ?_⟩
    · rw [Word.spell_cons, htext, List.cons_append, Cursor.tokens_of_readToken hblank hread, hgap, hts, ← htext]
      simp [Except.map]
    · rw [List.map_cons, hwords]
      rfl

/-! ### The words of an expression are legible -/

theorem fits_mark {p : Punctuator} {afterOperand : Bool} (h : p ≠ .dot) : (Word.mark p).Fits afterOperand :=
  ⟨fun hdot => absurd (TokenKind.punctuator.inj hdot) h, fun hoperand => nomatch hoperand⟩

theorem legible_name {n : String} (h : Lexes n (.identifier n)) : Legible false [.name n] :=
  .cons (.operand rfl h) ⟨(fun hdot => nomatch hdot), fun _ => rfl⟩ (.inr fun _ hv => nomatch hv) .nil

theorem Legible.append {afterOperand : Bool} {ws vs : List Word} (h : Legible afterOperand ws)
    (hhead : ∀ v ∈ vs.head?, v.kind.isDelimiter = true) (hvs : ∀ b, Legible b vs) : Legible afterOperand (ws ++ vs) := by
  induction h with
  | nil => exact hvs _
  | @cons afterOperand w ws hw hfits hnext _ ih =>
    refine .cons hw hfits ?_ ih
    cases ws with
    | nil => exact .inr hhead
    | cons v ws => exact hnext

theorem Legible.enclosed_append {ws vs : List Word} (b : Bracket) (h : Legible false ws) (hvs : Legible true vs)
    (afterOperand : Bool) : Legible afterOperand (enclosed b ws ++ vs) := by
  have hcloser (ao : Bool) : Legible ao (.mark b.closer :: vs) := by
    refine .cons (.mark _) (fits_mark ?_) (.inl ?_) ?_ <;> cases b
    all_goals first | exact hvs | decide
  rw [enclosed, List.cons_append, List.cons_append, List.append_assoc]
  refine .cons (.mark _) (fits_mark ?_) (.inl ?_) ?_
  · cases b <;> decide
  · cases b <;> decide
  · have hws : Legible false (ws ++ .mark b.closer :: vs) := h.append (by cases b <;> simp [Word.mark] <;> rfl) hcloser
    cases b <;> exact hws

theorem legible_enclosed {ws : List Word} (b : Bracket) (h : Legible false ws) (afterOperand : Bool) :
    Legible afterOperand (enclosed b ws) := by
  have henclosed := Legible.enclosed_append b h .nil afterOperand
  rwa [List.append_nil] at henclosed

theorem legible_separated {lists : List (List Word)} (h : ∀ ws ∈ lists, Legible false ws) :
    Legible false (separated lists) := by
  induction lists with
  | nil => exact .nil
  | cons ws lists ih =>
    obtain ⟨hws, hlists⟩ := List.forall_mem_cons.mp h
    cases lists with
    | nil => exact hws
    | cons vs lists =>
      refine hws.append (by simp [Word.mark]; rfl) fun b => ?_
      exact .cons (.mark _) (fits_mark (by decide)) (.inl rfl) (ih hlists)

/-- An operator stands in front of an argument in parentheses. -/
theorem legible_operator {p : Punctuator} {ws : List Word} (hp : p ≠ .dot) (h : Legible false ws)
    (afterOperand : Bool) : Legible afterOperand (.mark p :: parens ws) :=
  .cons (.mark p) (fits_mark hp) (.inr (by simp [parens, enclosed, Word.mark]; rfl)) (legible_enclosed _ h _)

theorem legible_groups {es : List Expr} (h : ∀ e ∈ es, Legible false e.words) :
    Legible false (separated ((listWords es).map parens)) := by
  refine legible_separated ?_
  rw [listWords_eq_map]
  simp only [List.forall_mem_map]
  exact fun e he => legible_enclosed _ (h e he) _

theorem punctuator_ne_dot (op : InfixOp) : op.punctuator ≠ .dot := by
  intro h
  have hinfix := infix?_punctuator op
  rw [h] at hinfix
  cases hinfix

theorem Simple.legible_words {e : Expr} (h : Simple e) : Legible false e.words := by
  induction h with
  | @literal value raw s h =>
    have hoperand : value.kind.isOperand = true := by
      cases value with
      | boolean b => cases b <;> rfl
      | _ => rfl
    have hdot : value.kind ≠ .punctuator .dot := by
      intro hk
      rw [hk] at hoperand
      cases hoperand
    rw [words]
    exact .cons (.operand hoperand h) ⟨fun hk => absurd hk hdot, fun _ => rfl⟩ (.inr fun _ hv => nomatch hv) .nil
  | identifier h => exact legible_name h
  | field _ h iho =>
    rw [words]
    refine iho.enclosed_append _ ?_ _
    exact .cons (.mark _) ⟨fun _ => rfl, fun hk => nomatch hk⟩ (.inl rfl) (legible_name h)
  | index _ _ iho ihk =>
    rw [words]
    exact iho.enclosed_append _ (legible_enclosed _ (legible_enclosed _ ihk _) _) _
  | call _ _ ihc iha =>
    rw [words]
    exact ihc.enclosed_append _ (legible_enclosed _ (legible_groups iha) _) _
  | array _ ih =>
    rw [words]
    exact legible_enclosed _ (legible_groups ih) _
  | map _ _ ihk ihv =>
    rw [words, entriesWords_eq_map]
    refine legible_enclosed _ (legible_separated ?_) _
    simp only [List.forall_mem_map]
    intro p hp
    refine (ihk p hp).enclosed_append _ ?_ _
    exact .cons (.mark _) (fits_mark (by decide)) (.inl rfl) (legible_enclosed _ (ihv p hp) _)
  | @unary op argument s _ ih =>
    rw [words]
    exact legible_operator (by cases op <;> decide) ih _
  | @update op argument leading s _ _ ih =>
    have hdot : op.punctuator ≠ .dot := by cases op <;> decide
    cases leading with
    | true =>
      rw [words]
      exact legible_operator hdot ih _
    | false =>
      rw [words]
      exact ih.enclosed_append _ (.cons (.mark _) (fits_mark hdot) (.inr (by simp)) .nil) _
  | @join op left right s _ _ _ ihl ihr =>
    rw [words]
    exact ihl.enclosed_append _ (legible_operator (punctuator_ne_dot op) ihr _) _

theorem WellFormed.legible_words {e : Expr} (h : WellFormed e) : Legible false e.words := by
  cases h with
  | simple h => exact h.legible_words
  | @compound items s _ h =>
    rw [words, listWords_eq_map]
    refine legible_separated ?_
    simpa only [List.forall_mem_map] using fun x hx => (h x hx).legible_words

/-! ### The grammar derives the printed expression -/

/-- Whatever reads as the words of the expression is the expression at some places. -/
def IsReadBack (e : Expr) : Prop :=
  ∀ ts rest, ts.map Token.word = e.words → Stops rest →
    ∃ e' : Expr, e'.erase = e.erase ∧ Derives (.expression e') (ts ++ rest) rest

theorem derives_of_unary {e : Expr} {ts rest : List Token} (h : Derives (.unary e) ts rest) (hrest : Stops rest) :
    Derives (.expression e) ts rest :=
  .expression h (.endLinks fun t ht => (hrest t ht).2) (.operand e)

theorem endSuffixes_of_stops {e : Expr} {rest : List Token} (h : Stops rest) : Derives (.suffixes e e) rest rest :=
  .endSuffixes fun t ht => (h t ht).1

theorem is_of_word {p : Punctuator} {t : Token} (h : t.word = .mark p) : t.is p = true :=
  Token.is_iff.mpr (congrArg Word.kind h)

/-- The tokens of a part in parentheses are a primary expression. -/
theorem IsReadBack.group {e : Expr} (h : IsReadBack e) {ts : List Token} (hts : ts.map Token.word = parens e.words)
    (rest : List Token) : ∃ e' : Expr, e'.erase = e.erase ∧ Derives (.primary e') (ts ++ rest) rest := by
  obtain ⟨o, us, rfl, ho, hus⟩ := List.map_eq_cons_iff.mp hts
  obtain ⟨inner, cs, rfl, hinner, hcs⟩ := List.map_eq_append_iff.mp hus
  obtain ⟨c, rfl, hc⟩ := List.map_eq_singleton_iff.mp hcs
  obtain ⟨e', herase, he⟩ := h inner (c :: rest) hinner (stops_cons (is_of_word hc) (by decide) rest)
  refine ⟨e', herase, .group (is_of_word ho) ?_ (is_of_word hc)⟩
  simpa using he

/-- A part in parentheses, as a whole expression in front of something that stops it. -/
theorem IsReadBack.group_expression {e : Expr} (h : IsReadBack e) {ts : List Token}
    (hts : ts.map Token.word = parens e.words) {rest : List Token} (hrest : Stops rest) :
    ∃ e' : Expr, e'.erase = e.erase ∧ Derives (.expression e') (ts ++ rest) rest := by
  obtain ⟨e', herase, he⟩ := h.group hts rest
  exact ⟨e', herase, derives_of_unary (.operand he (endSuffixes_of_stops hrest)) hrest⟩

theorem exists_elements (b : Bracket) {xs : List Expr} (h : ∀ x ∈ xs, IsReadBack x) {ts : List Token}
    (hts : ts.map Token.word = separated ((listWords xs).map parens) ++ [.mark b.closer]) (rest : List Token) :
    ∃ xs' close, xs'.map erase = xs.map erase ∧ Derives (.elements b xs' close) (ts ++ rest) rest := by
  have hstop {c : Token} (hc : c.is b.closer = true) (rest : List Token) : Stops (c :: rest) :=
    stops_cons hc (by cases b <;> decide) rest
  induction xs generalizing ts with
  | nil =>
    obtain ⟨c, rfl, hc⟩ := List.map_eq_singleton_iff.mp hts
    exact ⟨[], c.span, rfl, .endElements (is_of_word hc)⟩
  | cons x xs ih =>
    obtain ⟨hx, hxs⟩ := List.forall_mem_cons.mp h
    cases xs with
    | nil =>
      obtain ⟨us, cs, rfl, hus, hcs⟩ := List.map_eq_append_iff.mp hts
      obtain ⟨c, rfl, hc⟩ := List.map_eq_singleton_iff.mp hcs
      have hc := is_of_word hc
      obtain ⟨x', herase, hx'⟩ := hx.group_expression hus (hstop hc rest)
      refine ⟨[x'], c.span, by simp [herase], .lastElement ?_ hc⟩
      simpa using hx'
    | cons y ys =>
      have hsplit : ts.map Token.word =
          parens x.words ++ .mark .comma :: (separated ((listWords (y :: ys)).map parens) ++ [.mark b.closer]) := by
        rw [hts]
        simp [listWords, separated]
      obtain ⟨us, vs, rfl, hus, hvs⟩ := List.map_eq_append_iff.mp hsplit
      obtain ⟨c, ws, rfl, hc, hws⟩ := List.map_eq_cons_iff.mp hvs
      have hc := is_of_word hc
      obtain ⟨x', herase, hx'⟩ := hx.group_expression hus (stops_cons hc (by decide) (ws ++ rest))
      obtain ⟨xs', close, herases, hxs'⟩ := ih hxs hws
      refine ⟨x' :: xs', close, by rw [List.map_cons, List.map_cons, herase, herases], .element ?_ hc hxs'⟩
      simpa using hx'

/-- The tokens of an entry are its key, a colon and its value. -/
theorem exists_entry {key value : Expr} (hk : IsReadBack key) (hv : IsReadBack value) {ts : List Token}
    (hts : ts.map Token.word = parens key.words ++ .mark .colon :: parens value.words) {rest : List Token}
    (hrest : Stops rest) :
    ∃ key' value' colon us, key'.erase = key.erase ∧ value'.erase = value.erase ∧ colon.is .colon = true ∧
      Derives (.expression key') (ts ++ rest) (colon :: us) ∧ Derives (.expression value') us rest := by
  obtain ⟨ks, cs, rfl, hks, hcs⟩ := List.map_eq_append_iff.mp hts
  obtain ⟨colon, vs, rfl, hcolon, hvs⟩ := List.map_eq_cons_iff.mp hcs
  have hcolon := is_of_word hcolon
  obtain ⟨key', hkey, hkey'⟩ := hk.group_expression hks (stops_cons hcolon (by decide) (vs ++ rest))
  obtain ⟨value', hvalue, hvalue'⟩ := hv.group_expression hvs hrest
  exact ⟨key', value', colon, vs ++ rest, hkey, hvalue, hcolon, by simpa using hkey', hvalue'⟩

theorem exists_entries {es : List (Expr × Expr)} (hne : es ≠ []) (hk : ∀ p ∈ es, IsReadBack p.1)
    (hv : ∀ p ∈ es, IsReadBack p.2) {ts : List Token}
    (hts : ts.map Token.word = separated (entriesWords es) ++ [.mark .braceClose]) (rest : List Token) :
    ∃ es' close, es'.map (Prod.map erase erase) = es.map (Prod.map erase erase) ∧
      Derives (.entries es' close) (ts ++ rest) rest := by
  induction es generalizing ts with
  | nil => exact absurd rfl hne
  | cons e es ih =>
    obtain ⟨key, value⟩ := e
    obtain ⟨hkey, hks⟩ := List.forall_mem_cons.mp hk
    obtain ⟨hvalue, hvs⟩ := List.forall_mem_cons.mp hv
    cases es with
    | nil =>
      obtain ⟨us, cs, rfl, hus, hcs⟩ := List.map_eq_append_iff.mp hts
      obtain ⟨c, rfl, hc⟩ := List.map_eq_singleton_iff.mp hcs
      have hc := is_of_word hc
      obtain ⟨key', value', colon, vs, hkeyErase, hvalueErase, hcolon, hkey', hvalue'⟩ :=
        exists_entry hkey hvalue hus (stops_cons hc (by decide) rest)
      refine ⟨[(key', value')], c.span, by simp [hkeyErase, hvalueErase], .lastEntry ?_ hcolon hvalue' hc⟩
      simpa using hkey'
    | cons next es =>
      have hsplit : ts.map Token.word = (parens key.words ++ .mark .colon :: parens value.words) ++
          .mark .comma :: (separated (entriesWords (next :: es)) ++ [.mark .braceClose]) := by
        rw [hts]
        simp [entriesWords, separated]
      obtain ⟨us, vs, rfl, hus, hvs'⟩ := List.map_eq_append_iff.mp hsplit
      obtain ⟨c, ws, rfl, hc, hws⟩ := List.map_eq_cons_iff.mp hvs'
      have hc := is_of_word hc
      obtain ⟨key', value', colon, vs, hkeyErase, hvalueErase, hcolon, hkey', hvalue'⟩ :=
        exists_entry hkey hvalue hus (stops_cons hc (by decide) (ws ++ rest))
      obtain ⟨es', close, herases, hes'⟩ := ih (List.cons_ne_nil _ _) hks hvs hws
      refine ⟨(key', value') :: es', close, ?_, .entry ?_ hcolon hvalue' hc hes'⟩
      · rw [List.map_cons, List.map_cons, herases, Prod.map_apply, Prod.map_apply, hkeyErase, hvalueErase]
      · simpa using hkey'

theorem erase_list {xs xs' : List Expr} (h : xs'.map erase = xs.map erase) :
    listMapSpans (fun _ => ⟨0, 0⟩) xs' = listMapSpans (fun _ => ⟨0, 0⟩) xs := by
  rw [listMapSpans_eq_map, listMapSpans_eq_map]
  exact h

theorem erase_entries {es es' : List (Expr × Expr)}
    (h : es'.map (Prod.map erase erase) = es.map (Prod.map erase erase)) :
    entriesMapSpans (fun _ => ⟨0, 0⟩) es' = entriesMapSpans (fun _ => ⟨0, 0⟩) es := by
  rw [entriesMapSpans_eq_map, entriesMapSpans_eq_map]
  exact h

/-- An operand with suffixes is a whole expression in front of something that stops it. -/
theorem derives_of_suffixes {object e : Expr} {ts us rest : List Token} (hp : Derives (.primary object) ts us)
    (hs : Derives (.suffixes object e) us rest) (hrest : Stops rest) : Derives (.expression e) ts rest :=
  derives_of_unary (.operand hp hs) hrest

theorem derives_of_primary {e : Expr} {ts rest : List Token} (hp : Derives (.primary e) ts rest) (hrest : Stops rest) :
    Derives (.expression e) ts rest :=
  derives_of_suffixes hp (endSuffixes_of_stops hrest) hrest

section Constructors

variable {s : Span}

theorem isReadBack_literal (value : Literal) (raw : String) : IsReadBack (.literal value raw s) := by
  intro ts rest hts hrest
  obtain ⟨t, rfl, ht⟩ := List.map_eq_singleton_iff.mp hts
  obtain ⟨hkind, rfl⟩ := Word.mk.inj ht
  cases value with
  | number n =>
    refine ⟨_, ?_, derives_of_primary (.number hkind) hrest⟩
    rfl
  | string n =>
    refine ⟨_, ?_, derives_of_primary (.string hkind) hrest⟩
    rfl
  | boolean b =>
    cases b <;> refine ⟨_, ?_, derives_of_primary (.name hkind) hrest⟩ <;> rfl
  | null =>
    refine ⟨_, ?_, derives_of_primary (.name hkind) hrest⟩
    rfl

theorem isReadBack_identifier {name : String} (hname : name ∉ literalNames) : IsReadBack (.identifier name s) := by
  intro ts rest hts hrest
  obtain ⟨t, rfl, ht⟩ := List.map_eq_singleton_iff.mp hts
  refine ⟨_, ?_, derives_of_primary (.name (congrArg Word.kind ht)) hrest⟩
  simp only [literalNames, List.mem_cons, List.not_mem_nil, or_false, not_or] at hname
  rw [Reader.named]
  · rfl
  · exact hname.1
  · exact hname.2.1
  · exact hname.2.2

theorem IsReadBack.field {object : Expr} (ho : IsReadBack object) (name : String) (nameSpan : Span) :
    IsReadBack (.field object name nameSpan s) := by
  intro ts rest hts hrest
  rw [words] at hts
  obtain ⟨os, us, rfl, hos, hus⟩ := List.map_eq_append_iff.mp hts
  obtain ⟨dot, vs, rfl, hdot, hvs⟩ := List.map_eq_cons_iff.mp hus
  obtain ⟨n, rfl, hn⟩ := List.map_eq_singleton_iff.mp hvs
  obtain ⟨o', herase, ho'⟩ := ho.group hos (dot :: n :: rest)
  refine ⟨_, ?_, derives_of_suffixes (by simpa using ho')
    (.field (is_of_word hdot) (congrArg Word.kind hn) (endSuffixes_of_stops hrest)) hrest⟩
  simp only [erase, mapSpans] at herase ⊢
  rw [herase]

theorem IsReadBack.index {object key : Expr} (ho : IsReadBack object) (hk : IsReadBack key) :
    IsReadBack (.index object key s) := by
  intro ts rest hts hrest
  rw [words] at hts
  obtain ⟨os, us, rfl, hos, hus⟩ := List.map_eq_append_iff.mp hts
  obtain ⟨t, vs, rfl, ht, hvs⟩ := List.map_eq_cons_iff.mp hus
  obtain ⟨ks, cs, rfl, hks, hcs⟩ := List.map_eq_append_iff.mp hvs
  obtain ⟨c, rfl, hc⟩ := List.map_eq_singleton_iff.mp hcs
  have hc : c.is .bracketClose = true := is_of_word hc
  obtain ⟨o', hobject, ho'⟩ := ho.group hos (t :: (ks ++ c :: rest))
  obtain ⟨k', hkey, hk'⟩ := hk.group_expression hks (stops_cons hc (by decide) rest)
  refine ⟨_, ?_, derives_of_suffixes (by simpa using ho')
    (.index (is_of_word ht) hk' hc (endSuffixes_of_stops hrest)) hrest⟩
  simp only [erase, mapSpans] at hobject hkey ⊢
  rw [hobject, hkey]

theorem IsReadBack.call {callee : Expr} (hc : IsReadBack callee) {arguments : List Expr}
    (ha : ∀ x ∈ arguments, IsReadBack x) : IsReadBack (.call callee arguments s) := by
  intro ts rest hts hrest
  rw [words] at hts
  obtain ⟨os, us, rfl, hos, hus⟩ := List.map_eq_append_iff.mp hts
  obtain ⟨t, vs, rfl, ht, hvs⟩ := List.map_eq_cons_iff.mp hus
  obtain ⟨o', hcallee, ho'⟩ := hc.group hos (t :: (vs ++ rest))
  obtain ⟨xs', close, herases, hxs'⟩ := exists_elements .paren ha hvs rest
  refine ⟨_, ?_, derives_of_suffixes (by simpa using ho')
    (.call (is_of_word ht) hxs' (endSuffixes_of_stops hrest)) hrest⟩
  simp only [erase, mapSpans] at hcallee ⊢
  rw [hcallee, erase_list herases]

theorem isReadBack_array {elements : List Expr} (h : ∀ x ∈ elements, IsReadBack x) :
    IsReadBack (.array elements s) := by
  intro ts rest hts hrest
  rw [words] at hts
  obtain ⟨t, vs, rfl, ht, hvs⟩ := List.map_eq_cons_iff.mp hts
  obtain ⟨xs', close, herases, hxs'⟩ := exists_elements .square h hvs rest
  refine ⟨_, ?_, derives_of_primary (.array (is_of_word ht) hxs') hrest⟩
  simp only [erase, mapSpans]
  rw [erase_list herases]

theorem isReadBack_map {entries : List (Expr × Expr)} (hk : ∀ p ∈ entries, IsReadBack p.1)
    (hv : ∀ p ∈ entries, IsReadBack p.2) : IsReadBack (.map entries s) := by
  intro ts rest hts hrest
  rw [words] at hts
  obtain ⟨t, vs, rfl, ht, hvs⟩ := List.map_eq_cons_iff.mp hts
  by_cases hne : entries = []
  · subst hne
    obtain ⟨c, rfl, hc⟩ := List.map_eq_singleton_iff.mp hvs
    refine ⟨_, ?_, derives_of_primary (.emptyMap (is_of_word ht) (is_of_word hc)) hrest⟩
    rfl
  · obtain ⟨es', close, herases, hes'⟩ := exists_entries hne hk hv hvs rest
    refine ⟨_, ?_, derives_of_primary (.map (is_of_word ht) hes') hrest⟩
    simp only [erase, mapSpans]
    rw [erase_entries herases]

theorem IsReadBack.unary {argument : Expr} (h : IsReadBack argument) (op : UnaryOp) :
    IsReadBack (.unary op argument s) := by
  intro ts rest hts hrest
  rw [words] at hts
  obtain ⟨t, vs, rfl, ht, hvs⟩ := List.map_eq_cons_iff.mp hts
  obtain ⟨a', herase, ha'⟩ := h.group hvs rest
  have hop : t.kind.unary? = some op := by
    rw [show t.kind = _ from congrArg Word.kind ht]
    exact unary?_punctuator op
  refine ⟨_, ?_, derives_of_unary (.sign hop (.operand ha' (endSuffixes_of_stops hrest))) hrest⟩
  simp only [erase, mapSpans] at herase ⊢
  rw [herase]

theorem IsReadBack.update {argument : Expr} (h : IsReadBack argument) (ha : argument.isAssignable = true)
    (op : UpdateOp) (leading : Bool) : IsReadBack (.update op argument leading s) := by
  intro ts rest hts hrest
  have hop {t : Token} (ht : t.word = .mark op.punctuator) : t.kind.update? = some op := by
    rw [show t.kind = _ from congrArg Word.kind ht]
    exact update?_punctuator op
  cases leading with
  | true =>
    rw [words] at hts
    obtain ⟨t, vs, rfl, ht, hvs⟩ := List.map_eq_cons_iff.mp hts
    obtain ⟨a', herase, ha'⟩ := h.group hvs rest
    have hassignable : a'.isAssignable = true := by rw [isAssignable_congr herase, ha]
    refine ⟨_, ?_, derives_of_unary (.leadingUpdate (hop ht) (.operand ha' (endSuffixes_of_stops hrest)) hassignable)
      hrest⟩
    simp only [erase, mapSpans] at herase ⊢
    rw [herase]
  | false =>
    rw [words] at hts
    obtain ⟨us, cs, rfl, hus, hcs⟩ := List.map_eq_append_iff.mp hts
    obtain ⟨t, rfl, ht⟩ := List.map_eq_singleton_iff.mp hcs
    obtain ⟨a', herase, ha'⟩ := h.group hus (t :: rest)
    have hassignable : a'.isAssignable = true := by rw [isAssignable_congr herase, ha]
    refine ⟨_, ?_, derives_of_suffixes (by simpa using ha')
      (.trailingUpdate (hop ht) hassignable (endSuffixes_of_stops hrest)) hrest⟩
    simp only [erase, mapSpans] at herase ⊢
    rw [herase]

theorem IsReadBack.join {left right : Expr} (hl : IsReadBack left) (hr : IsReadBack right) {op : InfixOp}
    (ha : op.isAssign = true → left.isAssignable = true) : IsReadBack (.join op left right s) := by
  intro ts rest hts hrest
  rw [words] at hts
  obtain ⟨us, cs, rfl, hus, hcs⟩ := List.map_eq_append_iff.mp hts
  obtain ⟨t, vs, rfl, ht, hvs⟩ := List.map_eq_cons_iff.mp hcs
  have hkind : t.kind = .punctuator op.punctuator := congrArg Word.kind ht
  have hop : t.kind.infix? = some op := by
    rw [hkind]
    exact infix?_punctuator op
  have hextends : t.extendsOperand = false := by
    rw [Token.extendsOperand, Token.is, Token.is, Token.is, hkind]
    rcases op with o | o | o | _ <;> (try cases o) <;> decide
  obtain ⟨l', hleft, hl'⟩ := hl.group hus (t :: (vs ++ rest))
  obtain ⟨r', hright, hr'⟩ := hr.group hvs rest
  have hfirst : Derives (.unary l') (us ++ t :: vs ++ rest) (t :: (vs ++ rest)) :=
    .operand (by simpa using hl') (.endSuffixes (by simpa using hextends))
  have hlinks : Derives (.links [(op, r')]) (t :: (vs ++ rest)) rest :=
    .link hop (.operand hr' (endSuffixes_of_stops hrest)) (.endLinks fun t ht => (hrest t ht).2)
  have hgroups : Groups l' [(op, r')] _ := @Groups.join _ _ _ _ [] [] _ (.operand _) (.operand _) (by simp) (by simp)
    fun hassign => by rw [isAssignable_congr hleft, ha hassign]
  refine ⟨_, ?_, .expression hfirst hlinks hgroups⟩
  simp only [erase, mapSpans] at hleft hright ⊢
  rw [hleft, hright]

end Constructors

theorem Simple.isReadBack {e : Expr} (h : Simple e) : IsReadBack e := by
  induction h with
  | literal => exact isReadBack_literal _ _
  | identifier _ hname => exact isReadBack_identifier hname
  | field _ _ iho => exact iho.field _ _
  | index _ _ iho ihk => exact iho.index ihk
  | call _ _ ihc iha => exact ihc.call iha
  | array _ ih => exact isReadBack_array ih
  | map _ _ ihk ihv => exact isReadBack_map ihk ihv
  | unary _ ih => exact ih.unary _
  | update _ ha ih => exact ih.update ha _ _
  | join _ _ ha ihl ihr => exact ihl.join ihr ha

theorem exists_items {xs : List Expr} (h : ∀ x ∈ xs, Simple x) {ts : List Token}
    (hts : ts.map Token.word = separated (listWords xs)) : ∃ xs', xs'.map erase = xs.map erase ∧ Items ts xs' := by
  induction xs generalizing ts with
  | nil =>
    obtain rfl := List.map_eq_nil_iff.mp hts
    exact ⟨[], rfl, .nil⟩
  | cons x xs ih =>
    obtain ⟨hx, hxs⟩ := List.forall_mem_cons.mp h
    cases xs with
    | nil =>
      obtain ⟨x', herase, hx'⟩ := hx.isReadBack ts [] hts stops_nil
      rw [List.append_nil] at hx'
      exact ⟨[x'], by simp [herase], .expression hx' .nil⟩
    | cons y ys =>
      obtain ⟨us, vs, rfl, hus, hvs⟩ := List.map_eq_append_iff.mp hts
      obtain ⟨c, ws, rfl, hc, hws⟩ := List.map_eq_cons_iff.mp hvs
      have hc := is_of_word hc
      obtain ⟨x', herase, hx'⟩ := hx.isReadBack us (c :: ws) hus (stops_cons hc (by decide) ws)
      obtain ⟨xs', herases, hxs'⟩ := ih hxs hws
      exact ⟨x' :: xs', by rw [List.map_cons, List.map_cons, herase, herases],
        .expression hx' (.separator (.inr hc) hxs')⟩

theorem erase_ofItems {xs xs' : List Expr} (h : xs'.map erase = xs.map erase) (hlength : 2 ≤ xs.length) (s : Span) :
    ∃ e', ofItems xs' = some e' ∧ e'.erase = (compound xs s).erase := by
  have hlen := congrArg List.length h
  rw [List.length_map, List.length_map] at hlen
  match xs' with
  | [] | [_] => simp only [List.length_nil, List.length_singleton] at hlen; omega
  | x :: y :: rest =>
    refine ⟨_, rfl, ?_⟩
    simp only [erase, mapSpans]
    rw [erase_list h]

/-- A well-formed expression is read from its printed text. -/
theorem WellFormed.exists_parseAt_print {e : Expr} (h : WellFormed e) (base : Nat) :
    ∃ e', parseAt e.print base = .ok (some e') ∧ e'.erase = e.erase := by
  obtain ⟨ts, stop, hts, hwords⟩ := h.legible_words.exists_tokens base
  have hparse {es : List Expr} (hes : Items ts es) : parseAt e.print base = .ok (ofItems es) := by
    have hcursor : (Cursor.ofSource e.print base).tokens = .ok (ts, stop) := by
      rw [Cursor.ofSource, print, String.toList_ofList]
      exact hts
    exact parseAt_eq_ok_iff.mpr ⟨ts, stop, es, hcursor, hes, rfl⟩
  cases h with
  | simple hsimple =>
    obtain ⟨e', herase, he'⟩ := hsimple.isReadBack ts [] hwords stops_nil
    rw [List.append_nil] at he'
    exact ⟨e', hparse (.expression he' .nil), herase⟩
  | @compound items s hlength hitems =>
    rw [words] at hwords
    obtain ⟨es, herases, hes⟩ := exists_items hitems hwords
    obtain ⟨e', hof, herase⟩ := erase_ofItems herases hlength s
    exact ⟨e', (hparse hes).trans (congrArg Except.ok hof), herase⟩

/-- The expressions that are read are, up to their places, the well-formed ones: no other is read, and each of them is
read from its printed text. So to read, print and read again is the same as to read once. -/
theorem parseAt_print :
    (∀ source base e, parseAt source base = .ok (some e) → e.WellFormed) ∧
    (∀ e : Expr, e.WellFormed → ∀ base, ∃ e', parseAt e.print base = .ok (some e') ∧ e'.erase = e.erase) ∧
    ∀ source base e, parseAt source base = .ok (some e) →
      ∀ base', ∃ e', parseAt e.print base' = .ok (some e') ∧ e'.erase = e.erase :=
  ⟨fun _ _ _ h => wellFormed_of_parseAt h, fun _ h base => h.exists_parseAt_print base,
    fun _ _ _ h base' => (wellFormed_of_parseAt h).exists_parseAt_print base'⟩

/-- The items of a compound stay apart, and a name stays a name. -/
theorem parseAt_print_compound :
    ∃ e', parseAt "!(a), ((a).b)((null))" 0 = .ok (some e') ∧
      e'.erase = .compound [.unary .not (.identifier "a" ⟨0, 0⟩) ⟨0, 0⟩,
        .call (.field (.identifier "a" ⟨0, 0⟩) "b" ⟨0, 0⟩ ⟨0, 0⟩) [.literal .null "null" ⟨0, 0⟩] ⟨0, 0⟩] ⟨0, 0⟩ := by
  have ha : Lexes "a" (.identifier "a") := lexes_of_readToken (c := 'a') rfl rfl rfl
  have hb : Lexes "b" (.identifier "b") := lexes_of_readToken (c := 'b') rfl rfl rfl
  have hnull : Lexes "null" Literal.null.kind := lexes_of_readToken (c := 'n') rfl rfl rfl
  have ha : Simple (.identifier "a" ⟨0, 0⟩) := .identifier ha (by decide)
  have hcall : Simple (.call (.field (.identifier "a" ⟨0, 0⟩) "b" ⟨0, 0⟩ ⟨0, 0⟩) [.literal .null "null" ⟨0, 0⟩] ⟨0, 0⟩) :=
    .call (.field ha hb) (List.forall_mem_singleton.mpr (.literal hnull))
  have hnot : Simple (.unary .not (.identifier "a" ⟨0, 0⟩) ⟨0, 0⟩) := .unary ha
  have hitems := List.forall_mem_cons.mpr ⟨hnot, List.forall_mem_singleton.mpr hcall⟩
  have hread := parseAt_print.2.1 _ (.compound (s := ⟨0, 0⟩) (by decide) hitems) 0
  exact hread

end Expr

end TemplateSyntax
