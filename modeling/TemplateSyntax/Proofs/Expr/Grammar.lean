import Mathlib.Data.List.Chain
import TemplateSyntax.Expr.Reader
import TemplateSyntax.Proofs.Expr.Grouping

/-!
# The grammar of expressions

`Derives phrase ts rest` says that the tokens `ts` begin with the phrase and go on with `rest`. Phrases carry their
trees, so the grammar says what is read as well as how far. Chains of suffixes and of operators go on as long as the
next token can belong to them, so that of two expressions side by side the second one begins where no token continues
the first.

The parameters of a tag are expressions side by side, with separators anywhere between them (`Items`).
-/

namespace TemplateSyntax.Expr

/-! ### Tokens -/

namespace Token

/-- The token goes on with the operand in front of it. -/
def extendsOperand (t : Token) : Bool :=
  t.is .dot || t.is .bracketOpen || t.is .parenOpen || t.kind.update?.isSome

/-- The token may be the first one of an expression. -/
def startsExpression (t : Token) : Bool :=
  match t.kind with
  | .number _ | .string _ | .identifier _ => true
  | .punctuator p =>
    p.unary?.isSome || p.update?.isSome || p == .parenOpen || p == .bracketOpen || p == .braceOpen
  | .eof => false

theorem is_iff {p : Punctuator} {t : Token} : t.is p = true ↔ t.kind = .punctuator p := by
  rw [is, beq_iff_eq]

theorem not_is_of_is {p q : Punctuator} {t : Token} (h : t.is p = true) (hne : p ≠ q) : t.is q = false := by
  rw [is_iff] at h
  rw [is, h]
  simpa using hne

end Token

theorem Bracket.startsExpression_of_closer {b : Bracket} {t : Token} (h : t.is b.closer = true) :
    t.startsExpression = false := by
  rw [Token.is_iff] at h
  rw [Token.startsExpression, h]
  cases b <;> rfl

/-! ### Derivations -/

inductive Phrase where
  | expression (e : Expr)
  /-- The operators and operands behind the first operand. -/
  | links (ls : List (InfixOp × Expr))
  | unary (e : Expr)
  /-- What makes `e` of the object in front of it. -/
  | suffixes (object e : Expr)
  | primary (e : Expr)
  /-- The items of a list and its closing bracket. -/
  | elements (b : Bracket) (xs : List Expr) (close : Span)
  /-- The entries of a map that has some, and its closing brace. -/
  | entries (es : List (Expr × Expr)) (close : Span)

inductive Derives : Phrase → List Token → List Token → Prop
  | expression {first e : Expr} {ls : List (InfixOp × Expr)} {ts us rest : List Token}
      (hu : Derives (.unary first) ts us) (hl : Derives (.links ls) us rest) (hg : Groups first ls e) :
      Derives (.expression e) ts rest
  | endLinks {rest : List Token} (h : ∀ t ∈ rest.head?, t.kind.infix? = none) : Derives (.links []) rest rest
  | link {op : InfixOp} {e : Expr} {ls : List (InfixOp × Expr)} {t : Token} {ts us rest : List Token}
      (ht : t.kind.infix? = some op) (hu : Derives (.unary e) ts us) (hl : Derives (.links ls) us rest) :
      Derives (.links ((op, e) :: ls)) (t :: ts) rest
  | sign {op : UnaryOp} {e : Expr} {t : Token} {ts rest : List Token} (ht : t.kind.unary? = some op)
      (hu : Derives (.unary e) ts rest) : Derives (.unary (.unary op e (t.span.upTo e.span))) (t :: ts) rest
  | leadingUpdate {op : UpdateOp} {e : Expr} {t : Token} {ts rest : List Token} (ht : t.kind.update? = some op)
      (hu : Derives (.unary e) ts rest) (ha : e.isAssignable = true) :
      Derives (.unary (.update op e true (t.span.upTo e.span))) (t :: ts) rest
  | operand {object e : Expr} {ts us rest : List Token} (hp : Derives (.primary object) ts us)
      (hs : Derives (.suffixes object e) us rest) : Derives (.unary e) ts rest
  | endSuffixes {e : Expr} {rest : List Token} (h : ∀ t ∈ rest.head?, t.extendsOperand = false) :
      Derives (.suffixes e e) rest rest
  | field {object e : Expr} {name : String} {t n : Token} {ts rest : List Token} (ht : t.is .dot = true)
      (hn : n.kind = .identifier name)
      (hs : Derives (.suffixes (.field object name n.span (object.span.upTo n.span)) e) ts rest) :
      Derives (.suffixes object e) (t :: n :: ts) rest
  | index {object key e : Expr} {t c : Token} {ts us rest : List Token} (ht : t.is .bracketOpen = true)
      (hk : Derives (.expression key) ts (c :: us)) (hc : c.is .bracketClose = true)
      (hs : Derives (.suffixes (.index object key (object.span.upTo c.span)) e) us rest) :
      Derives (.suffixes object e) (t :: ts) rest
  | call {object e : Expr} {arguments : List Expr} {close : Span} {t : Token} {ts us rest : List Token}
      (ht : t.is .parenOpen = true) (ha : Derives (.elements .paren arguments close) ts us)
      (hs : Derives (.suffixes (.call object arguments (object.span.upTo close)) e) us rest) :
      Derives (.suffixes object e) (t :: ts) rest
  | trailingUpdate {op : UpdateOp} {object e : Expr} {t : Token} {ts rest : List Token}
      (ht : t.kind.update? = some op) (ha : object.isAssignable = true)
      (hs : Derives (.suffixes (.update op object false (object.span.upTo t.span)) e) ts rest) :
      Derives (.suffixes object e) (t :: ts) rest
  | number {value : Decimal.Binary64} {t : Token} {rest : List Token} (ht : t.kind = .number value) :
      Derives (.primary (.literal (.number value) t.text t.span)) (t :: rest) rest
  | string {value : String} {t : Token} {rest : List Token} (ht : t.kind = .string value) :
      Derives (.primary (.literal (.string value) t.text t.span)) (t :: rest) rest
  | name {name : String} {t : Token} {rest : List Token} (ht : t.kind = .identifier name) :
      Derives (.primary (Reader.named name t)) (t :: rest) rest
  | array {xs : List Expr} {close : Span} {t : Token} {ts rest : List Token} (ht : t.is .bracketOpen = true)
      (hx : Derives (.elements .square xs close) ts rest) :
      Derives (.primary (.array xs (t.span.upTo close))) (t :: ts) rest
  | emptyMap {t c : Token} {rest : List Token} (ht : t.is .braceOpen = true) (hc : c.is .braceClose = true) :
      Derives (.primary (.map [] (t.span.upTo c.span))) (t :: c :: rest) rest
  | map {es : List (Expr × Expr)} {close : Span} {t : Token} {ts rest : List Token} (ht : t.is .braceOpen = true)
      (he : Derives (.entries es close) ts rest) : Derives (.primary (.map es (t.span.upTo close))) (t :: ts) rest
  | group {e : Expr} {t c : Token} {ts rest : List Token} (ht : t.is .parenOpen = true)
      (he : Derives (.expression e) ts (c :: rest)) (hc : c.is .parenClose = true) :
      Derives (.primary e) (t :: ts) rest
  | endElements {b : Bracket} {c : Token} {rest : List Token} (hc : c.is b.closer = true) :
      Derives (.elements b [] c.span) (c :: rest) rest
  | lastElement {b : Bracket} {x : Expr} {c : Token} {ts rest : List Token}
      (hx : Derives (.expression x) ts (c :: rest)) (hc : c.is b.closer = true) :
      Derives (.elements b [x] c.span) ts rest
  | element {b : Bracket} {x : Expr} {xs : List Expr} {close : Span} {c : Token} {ts us rest : List Token}
      (hx : Derives (.expression x) ts (c :: us)) (hc : c.is .comma = true)
      (hxs : Derives (.elements b xs close) us rest) : Derives (.elements b (x :: xs) close) ts rest
  | lastEntry {key value : Expr} {colon c : Token} {ts us rest : List Token}
      (hk : Derives (.expression key) ts (colon :: us)) (hcolon : colon.is .colon = true)
      (hv : Derives (.expression value) us (c :: rest)) (hc : c.is .braceClose = true) :
      Derives (.entries [(key, value)] c.span) ts rest
  | entry {key value : Expr} {es : List (Expr × Expr)} {close : Span} {colon c : Token} {ts us vs rest : List Token}
      (hk : Derives (.expression key) ts (colon :: us)) (hcolon : colon.is .colon = true)
      (hv : Derives (.expression value) us (c :: vs)) (hc : c.is .comma = true)
      (hes : Derives (.entries es close) vs rest) : Derives (.entries ((key, value) :: es) close) ts rest

/-- The expressions side by side in a whole list of tokens. -/
inductive Items : List Token → List Expr → Prop
  | nil : Items [] []
  | separator {t : Token} {ts : List Token} {es : List Expr} (ht : t.is .semicolon = true ∨ t.is .comma = true)
      (hs : Items ts es) : Items (t :: ts) es
  | expression {e : Expr} {es : List Expr} {ts rest : List Token} (he : Derives (.expression e) ts rest)
      (hs : Items rest es) : Items ts (e :: es)

/-! ### First tokens -/

private theorem startsExpression_of_is {p : Punctuator} {t : Token} (h : t.is p = true)
    (hp : p = .parenOpen ∨ p = .bracketOpen ∨ p = .braceOpen) : t.startsExpression = true := by
  rw [Token.is_iff] at h
  rw [Token.startsExpression, h]
  rcases hp with rfl | rfl | rfl <;> rfl

private theorem startsExpression_of_unary? {op : UnaryOp} {t : Token} (h : t.kind.unary? = some op) :
    t.startsExpression = true := by
  cases hk : t.kind with
  | punctuator p =>
    rw [hk, TokenKind.unary?] at h
    simp [Token.startsExpression, hk, h]
  | _ => rw [hk] at h; cases h

private theorem startsExpression_of_update? {op : UpdateOp} {t : Token} (h : t.kind.update? = some op) :
    t.startsExpression = true := by
  cases hk : t.kind with
  | punctuator p =>
    rw [hk, TokenKind.update?] at h
    simp [Token.startsExpression, hk, h]
  | _ => rw [hk] at h; cases h

theorem Derives.primary_first {e : Expr} {ts rest : List Token} (h : Derives (.primary e) ts rest) :
    ∃ t us, ts = t :: us ∧ t.startsExpression = true ∧ t.kind.unary? = none ∧ t.kind.update? = none := by
  cases h with
  | number ht => exact ⟨_, _, rfl, by rw [Token.startsExpression, ht], by rw [ht]; rfl, by rw [ht]; rfl⟩
  | string ht => exact ⟨_, _, rfl, by rw [Token.startsExpression, ht], by rw [ht]; rfl, by rw [ht]; rfl⟩
  | name ht => exact ⟨_, _, rfl, by rw [Token.startsExpression, ht], by rw [ht]; rfl, by rw [ht]; rfl⟩
  | array ht =>
    have hk := Token.is_iff.mp ht
    exact ⟨_, _, rfl, startsExpression_of_is ht (.inr (.inl rfl)), by rw [hk]; rfl, by rw [hk]; rfl⟩
  | emptyMap ht | map ht =>
    have hk := Token.is_iff.mp ht
    exact ⟨_, _, rfl, startsExpression_of_is ht (.inr (.inr rfl)), by rw [hk]; rfl, by rw [hk]; rfl⟩
  | group ht =>
    have hk := Token.is_iff.mp ht
    exact ⟨_, _, rfl, startsExpression_of_is ht (.inl rfl), by rw [hk]; rfl, by rw [hk]; rfl⟩

/-- No expression begins with a separator or a closing bracket. -/
theorem Derives.expression_first {e : Expr} {ts rest : List Token} (h : Derives (.expression e) ts rest) :
    ∃ t us, ts = t :: us ∧ t.startsExpression = true := by
  cases h with
  | expression hu =>
    cases hu with
    | sign ht => exact ⟨_, _, rfl, startsExpression_of_unary? ht⟩
    | leadingUpdate ht => exact ⟨_, _, rfl, startsExpression_of_update? ht⟩
    | operand hp =>
      obtain ⟨t, us, heq, hstarts, -, -⟩ := hp.primary_first
      exact ⟨t, us, heq, hstarts⟩

/-! ### Last tokens -/

/-- A phrase leaves an end of the tokens. -/
theorem Derives.suffix {p : Phrase} {ts rest : List Token} (h : Derives p ts rest) : rest <:+ ts := by
  induction h with
  | expression _ _ _ ihu ihl => exact ihl.trans ihu
  | endLinks | endSuffixes => exact List.suffix_refl _
  | link _ _ _ ihu ihl => exact (ihl.trans ihu).trans (List.suffix_cons ..)
  | sign _ _ ihu | leadingUpdate _ _ _ ihu => exact ihu.trans (List.suffix_cons ..)
  | operand _ _ ihp ihs => exact ihs.trans ihp
  | field _ _ _ ihs => exact (ihs.trans (List.suffix_cons ..)).trans (List.suffix_cons ..)
  | index _ _ _ _ ihk ihs => exact ((ihs.trans (List.suffix_cons ..)).trans ihk).trans (List.suffix_cons ..)
  | call _ _ _ iha ihs => exact (ihs.trans iha).trans (List.suffix_cons ..)
  | trailingUpdate _ _ _ ihs => exact ihs.trans (List.suffix_cons ..)
  | number | string | name | endElements => exact List.suffix_cons ..
  | array _ _ ihx => exact ihx.trans (List.suffix_cons ..)
  | emptyMap => exact (List.suffix_cons ..).trans (List.suffix_cons ..)
  | map _ _ ihe => exact ihe.trans (List.suffix_cons ..)
  | group _ _ _ ihe => exact ((List.suffix_cons ..).trans ihe).trans (List.suffix_cons ..)
  | lastElement _ _ ihx => exact (List.suffix_cons ..).trans ihx
  | element _ _ _ ihx ihxs => exact (ihxs.trans (List.suffix_cons ..)).trans ihx
  | lastEntry _ _ _ _ ihk ihv => exact (((List.suffix_cons ..).trans ihv).trans (List.suffix_cons ..)).trans ihk
  | entry _ _ _ _ _ ihk ihv ihes =>
    exact (((ihes.trans (List.suffix_cons ..)).trans ihv).trans (List.suffix_cons ..)).trans ihk

theorem Derives.forall_mem {p : Phrase} {ts rest : List Token} {P : Token → Prop} (h : Derives p ts rest)
    (hts : ∀ t ∈ ts, P t) : ∀ t ∈ rest, P t :=
  fun t ht => hts t (h.suffix.subset ht)

/-! ### Next tokens -/

/-- What follows goes on neither with an operand nor with a chain of operators. -/
def Stops (rest : List Token) : Prop :=
  ∀ t ∈ rest.head?, t.extendsOperand = false ∧ t.kind.infix? = none

theorem stops_nil : Stops [] := by
  simp [Stops]

theorem stops_cons {p : Punctuator} {t : Token} (ht : t.is p = true)
    (hp : p = .semicolon ∨ p = .comma ∨ p = .colon ∨ p = .parenClose ∨ p = .bracketClose ∨ p = .braceClose)
    (rest : List Token) :
    Stops (t :: rest) := by
  intro t' ht'
  cases ht'
  rw [Token.is_iff] at ht
  simp only [Token.extendsOperand, Token.is, ht]
  rcases hp with rfl | rfl | rfl | rfl | rfl | rfl <;> decide

/-- What is known of the tokens behind a phrase that begins `ts`. Links leave an operand open if they are none. -/
def Phrase.Stopped : Phrase → List Token → List Token → Prop
  | .expression _, _, rest => Stops rest
  | .links _, ts, rest => (∀ t ∈ ts.head?, t.extendsOperand = false) → Stops rest
  | .unary _, _, rest | .suffixes _ _, _, rest => ∀ t ∈ rest.head?, t.extendsOperand = false
  | .primary _, _, _ | .elements _ _ _, _, _ | .entries _ _, _, _ => True

theorem Derives.stopped {p : Phrase} {ts rest : List Token} (h : Derives p ts rest) : p.Stopped ts rest := by
  induction h with
  | expression _ _ _ ihu ihl => exact ihl ihu
  | endLinks h => exact fun hextends t ht => ⟨hextends t ht, h t ht⟩
  | link _ _ _ ihu ihl => exact fun _ => ihl ihu
  | sign _ _ ihu | leadingUpdate _ _ _ ihu => exact ihu
  | operand _ _ _ ihs => exact ihs
  | endSuffixes h => exact h
  | field _ _ _ ihs | index _ _ _ _ _ ihs | call _ _ _ _ ihs | trailingUpdate _ _ _ ihs => exact ihs
  | number | string | name | array | emptyMap | map | group | endElements | lastElement | element | lastEntry | entry =>
    trivial

/-- An expression takes all that goes on with it. -/
theorem Derives.stops {e : Expr} {ts rest : List Token} (h : Derives (.expression e) ts rest) : Stops rest :=
  h.stopped

/-! ### Names behind periods -/

/-- A name follows each period. -/
def FieldsNamed (ts : List Token) : Prop :=
  ts.IsChain fun t u => t.is .dot = true → ∃ name, u.kind = .identifier name

theorem FieldsNamed.cons {t : Token} {ts : List Token} (h : FieldsNamed ts) (ht : t.kind ≠ .punctuator .dot) :
    FieldsNamed (t :: ts) :=
  List.IsChain.cons h fun _ _ hdot => absurd (Token.is_iff.mp hdot) ht

theorem FieldsNamed.cons_is {p : Punctuator} {t : Token} {ts : List Token} (h : FieldsNamed ts) (ht : t.is p = true)
    (hp : p ≠ .dot) : FieldsNamed (t :: ts) := by
  refine h.cons fun hdot => hp ?_
  rw [Token.is_iff, hdot] at ht
  exact (TokenKind.punctuator.inj ht).symm

theorem FieldsNamed.tail {t : Token} {ts : List Token} (h : FieldsNamed (t :: ts)) : FieldsNamed ts :=
  List.IsChain.tail h

theorem Bracket.closer_ne_dot (b : Bracket) : b.closer ≠ .dot := by
  cases b <;> decide

/-- In front of tokens whose periods are named, a phrase is written with named periods. -/
theorem Derives.fieldsNamed {p : Phrase} {ts rest : List Token} (h : Derives p ts rest) (hrest : FieldsNamed rest) :
    FieldsNamed ts := by
  induction h with
  | expression _ _ _ ihu ihl => exact ihu (ihl hrest)
  | endLinks | endSuffixes => exact hrest
  | link ht _ _ ihu ihl =>
    refine (ihu (ihl hrest)).cons fun hdot => ?_
    rw [hdot] at ht
    cases ht
  | sign ht _ ihu | leadingUpdate ht _ _ ihu | trailingUpdate ht _ _ ihu =>
    refine (ihu hrest).cons fun hdot => ?_
    rw [hdot] at ht
    cases ht
  | operand _ _ ihp ihs => exact ihp (ihs hrest)
  | field _ hn _ ihs =>
    have hname : FieldsNamed (_ :: _) := (ihs hrest).cons (by rw [hn]; exact fun h => nomatch h)
    refine List.IsChain.cons hname ?_
    rintro u ⟨⟩ -
    exact ⟨_, hn⟩
  | index ht _ hc _ ihk ihs => exact (ihk ((ihs hrest).cons_is hc (by decide))).cons_is ht (by decide)
  | call ht _ _ iha ihs => exact (iha (ihs hrest)).cons_is ht (by decide)
  | number ht | string ht | name ht => exact hrest.cons (by rw [ht]; exact fun h => nomatch h)
  | array ht _ ihx => exact (ihx hrest).cons_is ht (by decide)
  | emptyMap ht hc => exact (hrest.cons_is hc (by decide)).cons_is ht (by decide)
  | map ht _ ihe => exact (ihe hrest).cons_is ht (by decide)
  | group ht _ hc ihe => exact (ihe (hrest.cons_is hc (by decide))).cons_is ht (by decide)
  | endElements hc => exact hrest.cons_is hc (Bracket.closer_ne_dot _)
  | lastElement _ hc ihx => exact ihx (hrest.cons_is hc (Bracket.closer_ne_dot _))
  | element _ hc _ ihx ihxs => exact ihx ((ihxs hrest).cons_is hc (by decide))
  | lastEntry _ hcolon _ hc ihk ihv => exact ihk ((ihv (hrest.cons_is hc (by decide))).cons_is hcolon (by decide))
  | entry _ hcolon _ hc _ ihk ihv ihes =>
    exact ihk ((ihv ((ihes hrest).cons_is hc (by decide))).cons_is hcolon (by decide))

theorem Items.fieldsNamed {ts : List Token} {es : List Expr} (h : Items ts es) : FieldsNamed ts := by
  induction h with
  | nil => exact .nil
  | separator ht _ ih => exact ht.elim (fun ht => ih.cons_is ht (by decide)) fun ht => ih.cons_is ht (by decide)
  | expression he _ ih => exact he.fieldsNamed ih

end TemplateSyntax.Expr
