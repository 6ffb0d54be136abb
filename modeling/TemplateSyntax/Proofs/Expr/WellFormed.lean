import TemplateSyntax.Proofs.Expr.Acceptance
import TemplateSyntax.Proofs.Expr.Steps

/-!
# Well-formed expressions

What the reader makes of a text is a simple expression, in which a compound occurs nowhere, or a compound of at least
two simple ones. Names and literals in it are spelled as tokens, and only what can change is updated or assigned to.
Every phrase of the grammar is simple if its tokens are spelled as their texts say, so the readers return nothing else
(`wellFormed_of_parseAt`).
-/

namespace TemplateSyntax

/-! ### Expressions without their places -/

namespace Expr

mutual

/-- The same expression at other places. -/
@[simp] def mapSpans (f : Span → Span) : Expr → Expr
  | .literal value raw s => .literal value raw (f s)
  | .identifier name s => .identifier name (f s)
  | .field object name nameSpan s => .field (object.mapSpans f) name (f nameSpan) (f s)
  | .index object key s => .index (object.mapSpans f) (key.mapSpans f) (f s)
  | .call callee arguments s => .call (callee.mapSpans f) (listMapSpans f arguments) (f s)
  | .array elements s => .array (listMapSpans f elements) (f s)
  | .map entries s => .map (entriesMapSpans f entries) (f s)
  | .unary op argument s => .unary op (argument.mapSpans f) (f s)
  | .update op argument leading s => .update op (argument.mapSpans f) leading (f s)
  | .join op left right s => .join op (left.mapSpans f) (right.mapSpans f) (f s)
  | .compound items s => .compound (listMapSpans f items) (f s)

@[simp] def listMapSpans (f : Span → Span) : List Expr → List Expr
  | [] => []
  | e :: es => e.mapSpans f :: listMapSpans f es

@[simp] def entriesMapSpans (f : Span → Span) : List (Expr × Expr) → List (Expr × Expr)
  | [] => []
  | (key, value) :: es => (key.mapSpans f, value.mapSpans f) :: entriesMapSpans f es

end

theorem listMapSpans_eq_map (f : Span → Span) (es : List Expr) : listMapSpans f es = es.map (mapSpans f) := by
  induction es with
  | nil => rfl
  | cons e es ih => rw [listMapSpans, ih, List.map_cons]

theorem entriesMapSpans_eq_map (f : Span → Span) (es : List (Expr × Expr)) :
    entriesMapSpans f es = es.map (Prod.map (mapSpans f) (mapSpans f)) := by
  induction es with
  | nil => rfl
  | cons e es ih => rw [entriesMapSpans, ih, List.map_cons]; rfl

/-- The expression with all its spans forgotten. -/
def erase (e : Expr) : Expr :=
  e.mapSpans fun _ => ⟨0, 0⟩

theorem isAssignable_mapSpans (f : Span → Span) (e : Expr) : (e.mapSpans f).isAssignable = e.isAssignable := by
  cases e <;> rfl

/-- Expressions that differ in their places only are assignable alike. -/
theorem isAssignable_congr {e e' : Expr} (h : e'.erase = e.erase) : e'.isAssignable = e.isAssignable := by
  rw [← isAssignable_mapSpans (fun _ => ⟨0, 0⟩) e', ← isAssignable_mapSpans (fun _ => ⟨0, 0⟩) e]
  exact congrArg isAssignable h

end Expr

/-- The token that the literal is written as. -/
def Literal.kind : Literal → Expr.TokenKind
  | .number value => .number value
  | .string value => .string value
  | .boolean true => .identifier "true"
  | .boolean false => .identifier "false"
  | .null => .identifier "null"

namespace Expr

/-! ### Simple expressions -/

/-- The names that are literals. -/
def literalNames : List String :=
  ["true", "false", "null"]

/-- A well-formed expression without a compound in it. -/
inductive Simple : Expr → Prop
  | literal {value : Literal} {raw : String} {s : Span} (h : Lexes raw value.kind) : Simple (.literal value raw s)
  | identifier {name : String} {s : Span} (h : Lexes name (.identifier name)) (hname : name ∉ literalNames) :
      Simple (.identifier name s)
  | field {object : Expr} {name : String} {nameSpan s : Span} (ho : Simple object)
      (h : Lexes name (.identifier name)) : Simple (.field object name nameSpan s)
  | index {object key : Expr} {s : Span} (ho : Simple object) (hk : Simple key) : Simple (.index object key s)
  | call {callee : Expr} {arguments : List Expr} {s : Span} (hc : Simple callee) (ha : ∀ x ∈ arguments, Simple x) :
      Simple (.call callee arguments s)
  | array {elements : List Expr} {s : Span} (h : ∀ x ∈ elements, Simple x) : Simple (.array elements s)
  | map {entries : List (Expr × Expr)} {s : Span} (hk : ∀ p ∈ entries, Simple p.1) (hv : ∀ p ∈ entries, Simple p.2) :
      Simple (.map entries s)
  | unary {op : UnaryOp} {argument : Expr} {s : Span} (h : Simple argument) : Simple (.unary op argument s)
  | update {op : UpdateOp} {argument : Expr} {leading : Bool} {s : Span} (h : Simple argument)
      (ha : argument.isAssignable = true) : Simple (.update op argument leading s)
  | join {op : InfixOp} {left right : Expr} {s : Span} (hl : Simple left) (hr : Simple right)
      (ha : op.isAssign = true → left.isAssignable = true) : Simple (.join op left right s)

/-- A simple expression, or several of them side by side. -/
inductive WellFormed : Expr → Prop
  | simple {e : Expr} (h : Simple e) : WellFormed e
  | compound {items : List Expr} {s : Span} (hlength : 2 ≤ items.length) (h : ∀ x ∈ items, Simple x) :
      WellFormed (.compound items s)

theorem simple_named {name : String} {t : Token} (h : Lexes t.text (.identifier name)) :
    Simple (Reader.named name t) := by
  unfold Reader.named
  split
  · exact .literal h
  · exact .literal h
  · exact .literal h
  · next htrue hfalse hnull =>
    obtain rfl := eq_of_lexes_identifier h
    refine .identifier h ?_
    simp only [literalNames, List.mem_cons, List.not_mem_nil, or_false, not_or]
    exact ⟨htrue, hfalse, hnull⟩

theorem simple_of_groups {first e : Expr} {links : List (InfixOp × Expr)} (h : Groups first links e)
    (hfirst : Simple first) (hlinks : ∀ l ∈ links, Simple l.2) : Simple e := by
  induction h with
  | operand e => exact hfirst
  | join _ _ _ _ ha ihl ihr =>
    refine .join (ihl hfirst fun l hl => ?_) (ihr ?_ fun l hl => ?_) ha
    · exact hlinks l (List.mem_append_left _ hl)
    · exact hlinks _ (List.mem_append_right _ (List.mem_cons_self ..))
    · exact hlinks l (List.mem_append_right _ (List.mem_cons_of_mem _ hl))

/-! ### What is read is simple -/

/-- Every expression of the phrase is simple, if the object in front of its suffixes is. -/
def Phrase.Simple : Phrase → Prop
  | .expression e | .unary e | .primary e => e.Simple
  | .links ls => ∀ l ∈ ls, l.2.Simple
  | .suffixes object e => object.Simple → e.Simple
  | .elements _ xs _ => ∀ x ∈ xs, x.Simple
  | .entries es _ => ∀ p ∈ es, p.1.Simple ∧ p.2.Simple

theorem simple_of_derives {p : Phrase} {ts rest : List Token} (h : Derives p ts rest) (hts : ∀ t ∈ ts, t.Spelled) :
    p.Simple := by
  induction h with
  | expression hu _ hg ihu ihl => exact simple_of_groups hg (ihu hts) (ihl (hu.forall_mem hts))
  | endLinks => exact fun l hl => nomatch hl
  | link _ hu _ ihu ihl =>
    have hus := (List.forall_mem_cons.mp hts).2
    exact List.forall_mem_cons.mpr ⟨ihu hus, ihl (hu.forall_mem hus)⟩
  | sign _ _ ihu => exact .unary (ihu (List.forall_mem_cons.mp hts).2)
  | leadingUpdate _ _ ha ihu => exact .update (ihu (List.forall_mem_cons.mp hts).2) ha
  | operand hp _ ihp ihs => exact ihs (hp.forall_mem hts) (ihp hts)
  | endSuffixes => exact id
  | @field object e name t n ts rest _ hn _ ihs =>
    intro hobject
    obtain ⟨-, hname, hrest⟩ := by simpa only [List.forall_mem_cons] using hts
    have hlex : Lexes n.text (.identifier name) := hn ▸ hname (by rw [hn]; rfl)
    obtain rfl := eq_of_lexes_identifier hlex
    exact ihs hrest (.field hobject hlex)
  | index _ hk _ _ ihk ihs =>
    intro hobject
    have hkey := (List.forall_mem_cons.mp hts).2
    exact ihs (List.forall_mem_cons.mp (hk.forall_mem hkey)).2 (.index hobject (ihk hkey))
  | call _ ha _ iha ihs =>
    intro hobject
    have hargs := (List.forall_mem_cons.mp hts).2
    exact ihs (ha.forall_mem hargs) (.call hobject (iha hargs))
  | trailingUpdate _ ha _ ihs => exact fun hobject => ihs (List.forall_mem_cons.mp hts).2 (.update hobject ha)
  | @number value t _ ht | @string value t _ ht =>
    have hlex := (List.forall_mem_cons.mp hts).1 (by rw [ht]; rfl)
    rw [ht] at hlex
    exact .literal hlex
  | name ht =>
    have hlex := (List.forall_mem_cons.mp hts).1 (by rw [ht]; rfl)
    rw [ht] at hlex
    exact simple_named hlex
  | array _ _ ihx => exact .array (ihx (List.forall_mem_cons.mp hts).2)
  | emptyMap => exact .map (fun p hp => nomatch hp) (fun p hp => nomatch hp)
  | map _ _ ihe =>
    have hes := ihe (List.forall_mem_cons.mp hts).2
    exact .map (fun p hp => (hes p hp).1) (fun p hp => (hes p hp).2)
  | group _ _ _ ihe => exact ihe (List.forall_mem_cons.mp hts).2
  | endElements => exact fun x hx => nomatch hx
  | lastElement _ _ ihx => exact List.forall_mem_singleton.mpr (ihx hts)
  | element hx _ _ ihx ihxs =>
    exact List.forall_mem_cons.mpr ⟨ihx hts, ihxs (List.forall_mem_cons.mp (hx.forall_mem hts)).2⟩
  | lastEntry hk _ _ _ ihk ihv =>
    exact List.forall_mem_singleton.mpr ⟨ihk hts, ihv (List.forall_mem_cons.mp (hk.forall_mem hts)).2⟩
  | entry hk _ hv _ _ ihk ihv ihes =>
    have hus := (List.forall_mem_cons.mp (hk.forall_mem hts)).2
    have hvs := (List.forall_mem_cons.mp (hv.forall_mem hus)).2
    exact List.forall_mem_cons.mpr ⟨⟨ihk hts, ihv hus⟩, ihes hvs⟩

theorem simple_of_items {ts : List Token} {es : List Expr} (h : Items ts es) (hts : ∀ t ∈ ts, t.Spelled) :
    ∀ e ∈ es, e.Simple := by
  induction h with
  | nil => exact fun e he => nomatch he
  | separator _ _ ih => exact ih (List.forall_mem_cons.mp hts).2
  | expression he _ ih => exact List.forall_mem_cons.mpr ⟨simple_of_derives he hts, ih (he.forall_mem hts)⟩

theorem wellFormed_of_ofItems {es : List Expr} {e : Expr} (h : ofItems es = some e) (hes : ∀ x ∈ es, x.Simple) :
    e.WellFormed := by
  match es, h with
  | [_], h =>
    cases h
    exact .simple (hes e (List.mem_singleton_self e))
  | _ :: _ :: _, h =>
    cases h
    exact .compound (by simp) hes

/-- Nothing but well-formed expressions is read. -/
theorem wellFormed_of_parseAt {source : String} {base : Nat} {e : Expr} (h : parseAt source base = .ok (some e)) :
    e.WellFormed := by
  obtain ⟨ts, stop, es, hts, hes, hof⟩ := parseAt_eq_ok_iff.mp h
  exact wellFormed_of_ofItems hof (simple_of_items hes (Cursor.spelled_of_tokens hts))

end Expr

end TemplateSyntax
