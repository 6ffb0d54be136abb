import TemplateSyntax.Proofs.Expr.Lossless
import TemplateSyntax.Proofs.Expr.WellFormed

/-!
# Leaves of an expression

Parentheses are left out of a tree, operators are joined late, and suffixes are wrapped around what stands in front of
them. All the same, the numbers, strings and names of a text come out as the leaves of the tree, each once and in the
order in which they are written. Just the names that stand as operators do not: the names of operators with the end of
an operand in front of them (`leaves_of_parseAt`).
-/

namespace TemplateSyntax.Expr

open TemplateSyntax.Span (InOrder)
open Text (byteLength)

/-! ### Pieces -/

/-- What tokens and trees have in common: operands of one token, and the operators between operands. -/
inductive Piece where
  | operand (t : Token)
  | operator (op : InfixOp)
deriving DecidableEq

def Piece.operand? : Piece → Option Token
  | .operand t => some t
  | .operator _ => none

/-! ### Pieces of tokens -/

/-- The operator that a token stands as, a word or not. `behind` says whether an operand ends in front of it: `lt` is an
operator in `a lt b`, but not in `a.lt`. -/
def Token.operator? (behind : Bool) (t : Token) : Option InfixOp :=
  if behind then t.kind.infix? else none

/-- The pieces of the tokens in the order in which they are written. -/
def piecesOf : (behind : Bool) → List Token → List Piece
  | _, [] => []
  | behind, t :: ts =>
    match t.operator? behind with
    | some op => .operator op :: piecesOf false ts
    | none =>
      if t.kind.isOperand then .operand t :: piecesOf true ts
      else piecesOf (t.kind.endsOperand || (t.kind.update?.isSome && behind)) ts

/-- The numbers, strings and names among the tokens, without the words that stand as operators. -/
def operands (ts : List Token) : List Token :=
  (piecesOf false ts).filterMap Piece.operand?

section Pieces

variable {t : Token} {p : Punctuator}

theorem operands_sublist (ts : List Token) : (operands ts).Sublist ts := by
  have hpieces (behind : Bool) : ((piecesOf behind ts).filterMap Piece.operand?).Sublist ts := by
    induction ts generalizing behind with
    | nil => exact .slnil
    | cons t ts ih =>
      rw [piecesOf]
      split
      · exact (ih false).cons t
      · split
        · exact (ih true).cons_cons t
        · exact (ih _).cons t
  exact hpieces false

theorem piecesOf_operand (h : t.kind.isOperand = true) (ts : List Token) :
    piecesOf false (t :: ts) = .operand t :: piecesOf true ts := by
  simp [piecesOf, Token.operator?, h]

theorem piecesOf_operator {op : InfixOp} (h : t.kind.infix? = some op) (ts : List Token) :
    piecesOf true (t :: ts) = .operator op :: piecesOf false ts := by
  simp [piecesOf, Token.operator?, h]

theorem piecesOf_punctuator (h : t.kind = .punctuator p) {behind : Bool} (hp : behind = true → p.infix? = none)
    (ts : List Token) :
    piecesOf behind (t :: ts) = piecesOf ((TokenKind.punctuator p).endsOperand || (p.update?.isSome && behind)) ts := by
  have hoperator : t.operator? behind = none := by
    rw [Token.operator?, h]
    split
    · next hbehind => exact hp hbehind
    · rfl
  simp [piecesOf, hoperator, h, TokenKind.isOperand, TokenKind.update?]

theorem piecesOf_opens (h : t.is p = true)
    (hp : (TokenKind.punctuator p).endsOperand = false ∧ p.update? = none ∧ p.infix? = none) (behind : Bool)
    (ts : List Token) : piecesOf behind (t :: ts) = piecesOf false ts := by
  rw [piecesOf_punctuator (Token.is_iff.mp h) fun _ => hp.2.2, hp.1, hp.2.1, Option.isSome_none, Bool.false_and,
    Bool.or_false]

theorem piecesOf_closes (h : t.is p = true) (hp : (TokenKind.punctuator p).endsOperand = true ∧ p.infix? = none)
    (behind : Bool) (ts : List Token) : piecesOf behind (t :: ts) = piecesOf true ts := by
  rw [piecesOf_punctuator (Token.is_iff.mp h) fun _ => hp.2, hp.1, Bool.true_or]

theorem piecesOf_unary {op : UnaryOp} (h : t.kind.unary? = some op) (ts : List Token) :
    piecesOf false (t :: ts) = piecesOf false ts := by
  cases hk : t.kind with
  | punctuator p =>
    rw [piecesOf_punctuator hk fun hbehind => absurd hbehind Bool.false_ne_true]
    rw [hk] at h
    cases p <;> first | rfl | cases h
  | _ => rw [hk] at h; cases h

/-- An update changes nothing, on either side of its operand. -/
theorem piecesOf_update {op : UpdateOp} (h : t.kind.update? = some op) (behind : Bool) (ts : List Token) :
    piecesOf behind (t :: ts) = piecesOf behind ts := by
  cases hk : t.kind with
  | punctuator p =>
    rw [hk] at h
    have hp : p = .plusPlus ∨ p = .minusMinus := by cases p <;> first | exact .inl rfl | exact .inr rfl | cases h
    rcases hp with rfl | rfl
    · exact piecesOf_punctuator hk (fun _ => rfl) ts
    · exact piecesOf_punctuator hk (fun _ => rfl) ts
  | _ => rw [hk] at h; cases h

/-- In front of tokens that go on with no operand it does not matter whether one ends. -/
theorem piecesOf_of_stops {ts : List Token} (h : Stops ts) : piecesOf true ts = piecesOf false ts := by
  cases ts with
  | nil => rfl
  | cons t ts =>
    obtain ⟨hextends, hinfix⟩ := h t rfl
    have hupdate : t.kind.update?.isSome = false := by
      rw [Token.extendsOperand, Bool.or_eq_false_iff] at hextends
      exact hextends.2
    simp [piecesOf, Token.operator?, hinfix, hupdate]

end Pieces

/-! ### Pieces of trees -/

/-- The token that a leaf is written as. -/
def leaf? : Expr → Option Token
  | .literal value raw s => some ⟨value.kind, raw, s⟩
  | .identifier name s => some ⟨.identifier name, name, s⟩
  | _ => none

mutual

/-- The pieces of a tree from left to right. The name of a field is one of them. -/
def pieces : Expr → List Piece
  | .literal value raw s => [.operand ⟨value.kind, raw, s⟩]
  | .identifier name s => [.operand ⟨.identifier name, name, s⟩]
  | .field object name nameSpan _ => object.pieces ++ [.operand ⟨.identifier name, name, nameSpan⟩]
  | .index object key _ => object.pieces ++ key.pieces
  | .call callee arguments _ => callee.pieces ++ listPieces arguments
  | .array elements _ => listPieces elements
  | .map entries _ => entriesPieces entries
  | .unary _ argument _ | .update _ argument _ _ => argument.pieces
  | .join op left right _ => left.pieces ++ .operator op :: right.pieces
  | .compound items _ => listPieces items

def listPieces : List Expr → List Piece
  | [] => []
  | e :: es => e.pieces ++ listPieces es

def entriesPieces : List (Expr × Expr) → List Piece
  | [] => []
  | (key, value) :: es => key.pieces ++ (value.pieces ++ entriesPieces es)

end

theorem listPieces_eq (es : List Expr) : listPieces es = es.flatMap pieces := by
  induction es with
  | nil => rfl
  | cons e es ih => rw [listPieces, ih, List.flatMap_cons]

theorem entriesPieces_eq (es : List (Expr × Expr)) :
    entriesPieces es = (es.flatMap fun (key, value) => [key, value]).flatMap pieces := by
  induction es with
  | nil => rfl
  | cons e es ih =>
    rw [entriesPieces, ih]
    simp

/-- The leaves of a tree from left to right. -/
def leaves (e : Expr) : List Token :=
  e.pieces.filterMap Piece.operand?

theorem filterMap_flatMap_pieces (es : List Expr) :
    (es.flatMap pieces).filterMap Piece.operand? = es.flatMap leaves := by
  rw [List.filterMap_flatMap]
  rfl

/-- A tree is a leaf, or its leaves are those of its parts. -/
theorem leaves_eq (e : Expr) : e.leaves = e.leaf?.toList ++ e.children.flatMap leaves := by
  rw [← filterMap_flatMap_pieces]
  cases e <;>
    simp [leaves, pieces, leaf?, children, listPieces_eq, entriesPieces_eq, List.filterMap_cons, Piece.operand?]

theorem span_of_leaf? {e : Expr} {t : Token} (h : e.leaf? = some t) : t.span = e.span := by
  cases e with
  | literal | identifier => cases h; rfl
  | _ => cases h

theorem mem_leaves_of_holds {e x : Expr} (h : e.Holds x) {t : Token} (ht : x.leaf? = some t) : t ∈ e.leaves := by
  induction h using Relation.ReflTransGen.head_induction_on with
  | refl =>
    rw [leaves_eq, ht]
    exact List.mem_append_left _ (List.mem_singleton_self t)
  | head hc _ ih =>
    rw [leaves_eq]
    exact List.mem_append_right _ (List.mem_flatMap.mpr ⟨_, hc, ih⟩)

/-- The pieces of operators with an operand behind each of them. -/
def linksPieces (links : List (InfixOp × Expr)) : List Piece :=
  links.flatMap fun (op, e) => .operator op :: e.pieces

/-- However a chain is grouped, its pieces stay in their order. -/
theorem pieces_of_groups {first e : Expr} {links : List (InfixOp × Expr)} (h : Groups first links e) :
    e.pieces = first.pieces ++ linksPieces links := by
  induction h with
  | operand e => simp [linksPieces]
  | join _ _ _ _ _ ihl ihr =>
    rw [pieces, ihl, ihr]
    simp [linksPieces]

/-! ### Leaves of what is read -/

theorem Token.Spelled.eq_of_identifier {t : Token} (h : t.Spelled) {name : String} (ht : t.kind = .identifier name) :
    t = ⟨.identifier name, name, t.span⟩ := by
  have hlex := h (by rw [ht]; rfl)
  rw [ht] at hlex
  rw [← ht, ← eq_of_lexes_identifier hlex]

theorem pieces_named {name : String} {t : Token} (ht : t.kind = .identifier name) (h : t.Spelled) :
    (Reader.named name t).pieces = [.operand t] := by
  rw [h.eq_of_identifier ht]
  unfold Reader.named
  split <;> rfl

/-- The tokens between `ts` and `rest` have the pieces of the trees that the phrase makes, with the object in front of
suffixes counted as one of their tokens. -/
def Phrase.Keeps : Phrase → List Token → List Token → Prop
  | .expression e, ts, rest | .unary e, ts, rest | .primary e, ts, rest =>
    piecesOf false ts = e.pieces ++ piecesOf true rest
  | .links ls, ts, rest => piecesOf true ts = linksPieces ls ++ piecesOf true rest
  | .suffixes object e, ts, rest => object.pieces ++ piecesOf true ts = e.pieces ++ piecesOf true rest
  | .elements _ xs _, ts, rest => piecesOf false ts = listPieces xs ++ piecesOf true rest
  | .entries es _, ts, rest => piecesOf false ts = entriesPieces es ++ piecesOf true rest

/-- No piece is lost, and none changes its place. -/
theorem keeps_of_derives {p : Phrase} {ts rest : List Token} (h : Derives p ts rest) (hts : ∀ t ∈ ts, t.Spelled) :
    p.Keeps ts rest := by
  have hcloser (b : Bracket) : (TokenKind.punctuator b.closer).endsOperand = true ∧ b.closer.infix? = none := by
    cases b <;> exact ⟨rfl, rfl⟩
  induction h with dsimp only [Phrase.Keeps] at *
  | expression hu _ hg ihu ihl => rw [ihu hts, ihl (hu.forall_mem hts), pieces_of_groups hg, List.append_assoc]
  | endLinks => rfl
  | link ht hu _ ihu ihl =>
    have hus := (List.forall_mem_cons.mp hts).2
    rw [piecesOf_operator ht, ihu hus, ihl (hu.forall_mem hus)]
    simp [linksPieces]
  | sign ht _ ihu => rw [piecesOf_unary ht, ihu (List.forall_mem_cons.mp hts).2, pieces]
  | leadingUpdate ht _ _ ihu => rw [piecesOf_update ht, ihu (List.forall_mem_cons.mp hts).2, pieces]
  | operand hp _ ihp ihs => rw [ihp hts, ihs (hp.forall_mem hts)]
  | field ht hn _ ihs =>
    obtain ⟨-, hname, hrest⟩ := by simpa only [List.forall_mem_cons] using hts
    rw [piecesOf_opens ht ⟨rfl, rfl, rfl⟩, piecesOf_operand (by rw [hn]; rfl), ← ihs hrest, pieces, List.append_assoc,
      ← hname.eq_of_identifier hn, List.singleton_append]
  | index ht hk hc _ ihk ihs =>
    have hkey := (List.forall_mem_cons.mp hts).2
    have hus := (List.forall_mem_cons.mp (hk.forall_mem hkey)).2
    rw [piecesOf_opens ht ⟨rfl, rfl, rfl⟩, ihk hkey, piecesOf_closes hc ⟨rfl, rfl⟩, ← ihs hus, pieces,
      List.append_assoc]
  | call ht ha _ iha ihs =>
    have hargs := (List.forall_mem_cons.mp hts).2
    rw [piecesOf_opens ht ⟨rfl, rfl, rfl⟩, iha hargs, ← ihs (ha.forall_mem hargs), pieces, List.append_assoc]
  | trailingUpdate ht _ _ ihs => rw [piecesOf_update ht, ← ihs (List.forall_mem_cons.mp hts).2, pieces]
  | number ht | string ht => rw [piecesOf_operand (by rw [ht]; rfl), pieces, Literal.kind, ← ht]; rfl
  | name ht =>
    rw [piecesOf_operand (by rw [ht]; rfl), pieces_named ht (List.forall_mem_cons.mp hts).1, List.singleton_append]
  | array ht _ ihx => rw [piecesOf_opens ht ⟨rfl, rfl, rfl⟩, ihx (List.forall_mem_cons.mp hts).2, pieces]
  | emptyMap ht hc =>
    rw [piecesOf_opens ht ⟨rfl, rfl, rfl⟩, piecesOf_closes hc ⟨rfl, rfl⟩, pieces, entriesPieces, List.nil_append]
  | map ht _ ihe => rw [piecesOf_opens ht ⟨rfl, rfl, rfl⟩, ihe (List.forall_mem_cons.mp hts).2, pieces]
  | group ht _ hc ihe =>
    rw [piecesOf_opens ht ⟨rfl, rfl, rfl⟩, ihe (List.forall_mem_cons.mp hts).2, piecesOf_closes hc ⟨rfl, rfl⟩]
  | endElements hc => rw [piecesOf_closes hc (hcloser _), listPieces, List.nil_append]
  | lastElement _ hc ihx =>
    rw [ihx hts, piecesOf_closes hc (hcloser _), listPieces, listPieces, List.append_nil]
  | element hx hc _ ihx ihxs =>
    have hus := (List.forall_mem_cons.mp (hx.forall_mem hts)).2
    rw [ihx hts, piecesOf_opens hc ⟨rfl, rfl, rfl⟩, ihxs hus, listPieces, List.append_assoc]
  | lastEntry hk hcolon _ hc ihk ihv =>
    have hus := (List.forall_mem_cons.mp (hk.forall_mem hts)).2
    rw [ihk hts, piecesOf_opens hcolon ⟨rfl, rfl, rfl⟩, ihv hus, piecesOf_closes hc ⟨rfl, rfl⟩, entriesPieces,
      entriesPieces, List.append_nil, List.append_assoc]
  | entry hk hcolon hv hc _ ihk ihv ihes =>
    have hus := (List.forall_mem_cons.mp (hk.forall_mem hts)).2
    have hvs := (List.forall_mem_cons.mp (hv.forall_mem hus)).2
    rw [ihk hts, piecesOf_opens hcolon ⟨rfl, rfl, rfl⟩, ihv hus, piecesOf_opens hc ⟨rfl, rfl, rfl⟩, ihes hvs,
      entriesPieces, List.append_assoc, List.append_assoc]

theorem pieces_of_items {ts : List Token} {es : List Expr} (h : Items ts es) (hts : ∀ t ∈ ts, t.Spelled) :
    piecesOf false ts = es.flatMap pieces := by
  induction h with
  | nil => rfl
  | separator ht _ ih =>
    rw [← ih (List.forall_mem_cons.mp hts).2]
    rcases ht with ht | ht
    · exact piecesOf_opens ht ⟨rfl, rfl, rfl⟩ false _
    · exact piecesOf_opens ht ⟨rfl, rfl, rfl⟩ false _
  | expression he _ ih =>
    have hfirst : piecesOf false _ = _ ++ piecesOf true _ := keeps_of_derives he hts
    rw [hfirst, piecesOf_of_stops he.stops, ih (he.forall_mem hts), List.flatMap_cons]

theorem pieces_of_ofItems {es : List Expr} {e : Expr} (h : ofItems es = some e) : e.pieces = es.flatMap pieces := by
  match es, h with
  | [_], h =>
    cases h
    rw [List.flatMap_singleton]
  | _ :: _ :: _, h =>
    cases h
    rw [pieces, listPieces_eq]

/-- Every part of what is read has a place in the text, around those of its own parts, one behind the other, and a leaf
is what stands at its place. The leaves are the operands of the text, and the operators between operands come out where
they stood. -/
theorem leaves_of_parseAt {source : String} {base : Nat} {e : Expr} (h : parseAt source base = .ok (some e)) :
    let stop := base + byteLength source.toList
    (∀ x, e.Holds x → x.span.start < x.span.stop ∧ base ≤ x.span.start ∧ x.span.stop ≤ stop ∧
      InOrder x.span.start (x.children.map span) x.span.stop ∧
      ∀ t ∈ x.leaf?, StandsAt source.toList base x.span t.text) ∧
    ∃ ts, tokenizeAt source base = .ok (ts ++ [endToken stop]) ∧ e.leaves = operands ts ∧
      e.pieces = piecesOf false ts := by
  intro stop
  obtain ⟨ts, stop', es, hts, hes, hof⟩ := parseAt_eq_ok_iff.mp h
  obtain ⟨c', hreads, -, hend⟩ := Cursor.exists_reads_of_tokens hts
  obtain rfl : stop' = stop := hend.trans hreads.byteLength_eq
  have hpieces : e.pieces = piecesOf false ts := by
    rw [pieces_of_ofItems hof, pieces_of_items hes (Cursor.spelled_of_tokens hts)]
  have hleaves : e.leaves = operands ts := congrArg (List.filterMap Piece.operand?) hpieces
  obtain ⟨hnested, hfirst, -, hlast⟩ := nested_of_parseAt h
  refine ⟨fun x hx => ?_, ts, tokenizeAt_eq_ok_iff.mpr hts, hleaves, hpieces⟩
  obtain ⟨hnested, hstart, hstop⟩ := hnested.of_holds hx
  cases hnested with
  | intro hnonempty hchildren =>
    refine ⟨hnonempty, Nat.le_trans hfirst hstart, Nat.le_trans hstop hlast, hchildren, fun t ht => ?_⟩
    have hmem : t ∈ operands ts := hleaves ▸ mem_leaves_of_holds hx ht
    rw [← span_of_leaf? ht]
    exact hreads.standsAt (Cursor.faces_ofSource source base) t ((operands_sublist ts).subset hmem)

/-- The first name that could be an operator is the name of a field. -/
theorem leaves_of_parseAt_words :
    ∃ e, parseAt "a.lt lt (b)" 0 = .ok (some e) ∧ e.leaves.map Token.text = ["a", "lt", "b"] ∧
      ∀ x, e.Holds x → x.span.start < x.span.stop ∧ x.span.stop ≤ 11 := by
  have hparse : (parseAt "a.lt lt (b)" 0).toOption.any Option.isSome = true := by decide +kernel
  obtain ⟨r, hr, hsome⟩ := exists_eq_ok_of_any hparse
  obtain ⟨e, rfl⟩ := Option.isSome_iff_exists.mp hsome
  have htexts : (Cursor.ofSource "a.lt lt (b)" 0).tokens.toOption.any (fun answer =>
      (operands answer.1).map Token.text = ["a", "lt", "b"]) = true := by decide +kernel
  obtain ⟨⟨us, stop⟩, hus, htexts⟩ := exists_eq_ok_of_any htexts
  obtain ⟨hparts, ts, hts, hleaves, -⟩ := leaves_of_parseAt hr
  rw [tokenizeAt_eq_ok_iff, hus] at hts
  cases hts
  refine ⟨e, hr, hleaves ▸ of_decide_eq_true htexts, fun x hx => ?_⟩
  obtain ⟨hnonempty, -, hstop, -⟩ := hparts x hx
  exact ⟨hnonempty, hstop⟩

end TemplateSyntax.Expr
