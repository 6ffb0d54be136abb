import Mathlib.Data.List.Forall2
import TemplateSyntax.Proofs.Expr.Printing

/-!
# Comparisons in words

The grammar looks at the operator that a token is and not at how the operator is spelled. So if words are put for some
of the symbols of comparisons, the same phrases are derived, with the same trees up to their places
(`Derives.exists_alike`).
-/

namespace TemplateSyntax.Expr

/-! ### Words for comparisons -/

/-- The word that compares like the token. -/
def TokenKind.word? : TokenKind → Option String
  | .punctuator .lt => some "lt"
  | .punctuator .ltEq => some "lte"
  | .punctuator .gt => some "gt"
  | .punctuator .gtEq => some "gte"
  | _ => none

theorem TokenKind.exists_of_word? {k : TokenKind} {w : String} (h : k.word? = some w) :
    (∃ p : Punctuator, k = .punctuator p ∧ p.unary? = none ∧ p.update? = none) ∧
      (k.infix?).isSome ∧ TokenKind.infix? (.identifier w) = k.infix? := by
  unfold TokenKind.word? at h
  split at h <;> cases h <;> exact ⟨⟨_, rfl, rfl, rfl⟩, rfl, rfl⟩

namespace Token

/-- The other token has the same meaning and text, or is the word for the comparison. -/
inductive Alike (t t' : Token) : Prop
  | same (hkind : t'.kind = t.kind) (htext : t'.text = t.text)
  | worded {w : String} (hw : t.kind.word? = some w) (hkind : t'.kind = .identifier w)

variable {t t' : Token}

theorem Alike.of_word?_eq_none (h : t.Alike t') (hw : t.kind.word? = none) : t'.kind = t.kind ∧ t'.text = t.text := by
  cases h with
  | same hkind htext => exact ⟨hkind, htext⟩
  | worded hw' =>
    rw [hw] at hw'
    cases hw'

theorem Alike.infix?_eq (h : t.Alike t') : t'.kind.infix? = t.kind.infix? := by
  cases h with
  | same hkind => rw [hkind]
  | worded hw hkind =>
    rw [hkind]
    exact (TokenKind.exists_of_word? hw).2.2

theorem Alike.extendsOperand_eq (h : t.Alike t') : t'.extendsOperand = t.extendsOperand := by
  cases h with
  | same hkind => simp only [extendsOperand, is, hkind]
  | worded hw hkind =>
    have hfalse : t'.extendsOperand = false := by
      simp only [extendsOperand, is, hkind]
      rfl
    rw [hfalse]
    obtain ⟨⟨p, hp, -, hupdate⟩, -⟩ := TokenKind.exists_of_word? hw
    have hnot (q : Punctuator) (hq : TokenKind.word? (.punctuator q) = none) : t.is q = false := by
      refine Bool.eq_false_iff.mpr fun his => ?_
      rw [is_iff.mp his, hq] at hw
      cases hw
    rw [extendsOperand, hnot .dot rfl, hnot .bracketOpen rfl, hnot .parenOpen rfl, hp, TokenKind.update?, hupdate]
    rfl

theorem Alike.is {p : Punctuator} (h : t.Alike t') (hp : TokenKind.word? (.punctuator p) = none) (ht : t.is p = true) :
    t'.is p = true := by
  rw [is_iff] at ht ⊢
  rw [(h.of_word?_eq_none (by rw [ht, hp])).1, ht]

theorem Alike.unary? {op : UnaryOp} (h : t.Alike t') (ht : t.kind.unary? = some op) : t'.kind.unary? = some op := by
  have hw : t.kind.word? = none := by
    refine Option.eq_none_iff_forall_ne_some.mpr fun w hw => ?_
    obtain ⟨⟨p, hp, hunary, -⟩, -⟩ := TokenKind.exists_of_word? hw
    rw [hp, TokenKind.unary?, hunary] at ht
    cases ht
  rw [(h.of_word?_eq_none hw).1, ht]

theorem Alike.update? {op : UpdateOp} (h : t.Alike t') (ht : t.kind.update? = some op) :
    t'.kind.update? = some op := by
  have hw : t.kind.word? = none := by
    refine Option.eq_none_iff_forall_ne_some.mpr fun w hw => ?_
    obtain ⟨⟨p, hp, -, hupdate⟩, -⟩ := TokenKind.exists_of_word? hw
    rw [hp, TokenKind.update?, hupdate] at ht
    cases ht
  rw [(h.of_word?_eq_none hw).1, ht]

/-- No symbol of a comparison is an operand. -/
theorem Alike.operand (h : t.Alike t') (ht : t.kind.isOperand = true) : t'.kind = t.kind ∧ t'.text = t.text := by
  refine h.of_word?_eq_none (Option.eq_none_iff_forall_ne_some.mpr fun w hw => ?_)
  obtain ⟨⟨p, hp, -⟩, -⟩ := TokenKind.exists_of_word? hw
  rw [hp] at ht
  cases ht

end Token

theorem word?_closer (b : Bracket) : TokenKind.word? (.punctuator b.closer) = none := by
  cases b <;> rfl

/-! ### Groups -/

section Groups

variable {first first' : Expr} {links links' : List (InfixOp × Expr)}

theorem forall_fst_of_map_eq {P : InfixOp → Prop} (h : links'.map (Prod.map id erase) = links.map (Prod.map id erase))
    (hlinks : ∀ l ∈ links, P l.1) : ∀ l ∈ links', P l.1 := by
  have hfst : links'.map Prod.fst = links.map Prod.fst := by
    simpa [Function.comp_def] using congrArg (List.map Prod.fst) h
  rw [← List.forall_mem_map (f := Prod.fst) (P := P)] at hlinks ⊢
  rwa [hfst]

/-- Operands that differ in their places only are grouped alike. -/
theorem Groups.exists_erase {e : Expr} (h : Groups first links e) (hfirst : first'.erase = first.erase)
    (hlinks : links'.map (Prod.map id erase) = links.map (Prod.map id erase)) :
    ∃ e', Groups first' links' e' ∧ e'.erase = e.erase := by
  induction h generalizing first' links' with
  | operand e =>
    obtain rfl := List.map_eq_nil_iff.mp hlinks
    exact ⟨first', .operand _, hfirst⟩
  | @join first second left right before after op _ _ hbefore hafter ha ihl ihr =>
    rw [List.map_append, List.map_cons] at hlinks
    obtain ⟨before', rest', rfl, hb, hr⟩ := List.map_eq_append_iff.mp hlinks
    obtain ⟨⟨op', second'⟩, after', rfl, hlink, ha'⟩ := List.map_eq_cons_iff.mp hr
    obtain ⟨rfl, hsecond⟩ := Prod.mk.inj hlink
    obtain ⟨left', hl, hleft⟩ := ihl hfirst hb
    obtain ⟨right', hr, hright⟩ := ihr hsecond ha'
    have hbefore' := forall_fst_of_map_eq (P := fun o => op'.yieldsTo o = true) hb hbefore
    have hafter' := forall_fst_of_map_eq (P := fun o => o.yieldsTo op' = false) ha' hafter
    refine ⟨_, .join hl hr hbefore' hafter' fun hop => ?_, ?_⟩
    · rw [isAssignable_congr hleft]
      exact ha hop
    · simp only [erase, mapSpans] at hleft hright ⊢
      rw [hleft, hright]
      rfl

end Groups

/-! ### Phrases -/

/-- The tokens begin with the same phrase at other places. -/
def Phrase.Reads : Phrase → List Token → List Token → Prop
  | .expression e, ts, rest => ∃ e', e'.erase = e.erase ∧ Derives (.expression e') ts rest
  | .links ls, ts, rest =>
    ∃ ls', ls'.map (Prod.map id erase) = ls.map (Prod.map id erase) ∧ Derives (.links ls') ts rest
  | .unary e, ts, rest => ∃ e', e'.erase = e.erase ∧ Derives (.unary e') ts rest
  | .suffixes object e, ts, rest =>
    ∀ object', object'.erase = object.erase → ∃ e', e'.erase = e.erase ∧ Derives (.suffixes object' e') ts rest
  | .primary e, ts, rest => ∃ e', e'.erase = e.erase ∧ Derives (.primary e') ts rest
  | .elements b xs _, ts, rest => ∃ xs' close, xs'.map erase = xs.map erase ∧ Derives (.elements b xs' close) ts rest
  | .entries es _, ts, rest =>
    ∃ es' close, es'.map (Prod.map erase erase) = es.map (Prod.map erase erase) ∧ Derives (.entries es' close) ts rest

theorem erase_named (name : String) {t t' : Token} (h : t'.text = t.text) :
    (Reader.named name t').erase = (Reader.named name t).erase := by
  unfold Reader.named
  split <;> simp [erase, h]

/-- Of tokens that are alike the same phrases are derived. -/
theorem Derives.exists_alike {p : Phrase} {ts rest ts' : List Token} (h : Derives p ts rest)
    (hts : List.Forall₂ Token.Alike ts ts') : ∃ rest', List.Forall₂ Token.Alike rest rest' ∧ p.Reads ts' rest' := by
  induction h generalizing ts' with
  | expression _ _ hg ihu ihl =>
    obtain ⟨us', hus, first', hfirst, hu⟩ := ihu hts
    obtain ⟨rest', hrest, ls', hls, hl⟩ := ihl hus
    obtain ⟨e', hg', he⟩ := hg.exists_erase hfirst hls
    exact ⟨rest', hrest, e', he, .expression hu hl hg'⟩
  | endLinks hend =>
    refine ⟨ts', hts, [], rfl, .endLinks fun t' ht' => ?_⟩
    cases hts with
    | nil => cases ht'
    | cons hhead =>
      cases ht'
      rw [hhead.infix?_eq]
      exact hend _ rfl
  | link ht _ _ ihu ihl =>
    cases hts with
    | cons hhead htail =>
      obtain ⟨us', hus, e', he, hu⟩ := ihu htail
      obtain ⟨rest', hrest, ls', hls, hl⟩ := ihl hus
      refine ⟨rest', hrest, (_, e') :: ls', ?_, .link (hhead.infix?_eq.trans ht) hu hl⟩
      rw [List.map_cons, List.map_cons, hls, Prod.map_apply, Prod.map_apply, he]
  | sign ht _ ihu =>
    cases hts with
    | cons hhead htail =>
      obtain ⟨rest', hrest, e', he, hu⟩ := ihu htail
      refine ⟨rest', hrest, _, ?_, .sign (hhead.unary? ht) hu⟩
      simp only [erase, mapSpans] at he ⊢
      rw [he]
  | leadingUpdate ht _ ha ihu =>
    cases hts with
    | cons hhead htail =>
      obtain ⟨rest', hrest, e', he, hu⟩ := ihu htail
      refine ⟨rest', hrest, _, ?_, .leadingUpdate (hhead.update? ht) hu ((isAssignable_congr he).trans ha)⟩
      simp only [erase, mapSpans] at he ⊢
      rw [he]
  | operand _ _ ihp ihs =>
    obtain ⟨us', hus, object', hobject, hp⟩ := ihp hts
    obtain ⟨rest', hrest, hreads⟩ := ihs hus
    obtain ⟨e', he, hs⟩ := hreads object' hobject
    exact ⟨rest', hrest, e', he, .operand hp hs⟩
  | endSuffixes hend =>
    refine ⟨ts', hts, fun object' hobject => ⟨object', hobject, .endSuffixes fun t' ht' => ?_⟩⟩
    cases hts with
    | nil => cases ht'
    | cons hhead =>
      cases ht'
      rw [hhead.extendsOperand_eq]
      exact hend _ rfl
  | @field object e name t n ts rest ht hn _ ihs =>
    cases hts with
    | cons hhead htail =>
      cases htail with
      | cons hname htail =>
        obtain ⟨rest', hrest, hreads⟩ := ihs htail
        refine ⟨rest', hrest, fun object' hobject => ?_⟩
        have hn' := (hname.operand (by rw [hn]; rfl)).1.trans hn
        obtain ⟨e', he, hs⟩ := hreads (.field object' name _ _) (by
          simp only [erase, mapSpans] at hobject ⊢
          rw [hobject])
        exact ⟨e', he, .field (hhead.is rfl ht) hn' hs⟩
  | index ht _ hc _ ihk ihs =>
    cases hts with
    | cons hhead htail =>
      obtain ⟨cus', hcus, key', hkey, hk⟩ := ihk htail
      cases hcus with
      | cons hclose hus =>
        obtain ⟨rest', hrest, hreads⟩ := ihs hus
        refine ⟨rest', hrest, fun object' hobject => ?_⟩
        obtain ⟨e', he, hs⟩ := hreads (.index object' key' _) (by
          simp only [erase, mapSpans] at hobject hkey ⊢
          rw [hobject, hkey])
        exact ⟨e', he, .index (hhead.is rfl ht) hk (hclose.is rfl hc) hs⟩
  | call ht _ _ iha ihs =>
    cases hts with
    | cons hhead htail =>
      obtain ⟨us', hus, arguments', close', harguments, ha⟩ := iha htail
      obtain ⟨rest', hrest, hreads⟩ := ihs hus
      refine ⟨rest', hrest, fun object' hobject => ?_⟩
      obtain ⟨e', he, hs⟩ := hreads (.call object' arguments' _) (by
        simp only [erase, mapSpans] at hobject ⊢
        rw [hobject, erase_list harguments])
      exact ⟨e', he, .call (hhead.is rfl ht) ha hs⟩
  | trailingUpdate ht ha _ ihs =>
    cases hts with
    | cons hhead htail =>
      obtain ⟨rest', hrest, hreads⟩ := ihs htail
      refine ⟨rest', hrest, fun object' hobject => ?_⟩
      obtain ⟨e', he, hs⟩ := hreads (.update _ object' false _) (by
        simp only [erase, mapSpans] at hobject ⊢
        rw [hobject])
      exact ⟨e', he, .trailingUpdate (hhead.update? ht) ((isAssignable_congr hobject).trans ha) hs⟩
  | number ht =>
    cases hts with
    | cons hhead htail =>
      obtain ⟨hkind, htext⟩ := hhead.operand (by rw [ht]; rfl)
      exact ⟨_, htail, _, by simp [erase, htext], .number (hkind.trans ht)⟩
  | string ht =>
    cases hts with
    | cons hhead htail =>
      obtain ⟨hkind, htext⟩ := hhead.operand (by rw [ht]; rfl)
      exact ⟨_, htail, _, by simp [erase, htext], .string (hkind.trans ht)⟩
  | name ht =>
    cases hts with
    | cons hhead htail =>
      obtain ⟨hkind, htext⟩ := hhead.operand (by rw [ht]; rfl)
      exact ⟨_, htail, _, erase_named _ htext, .name (hkind.trans ht)⟩
  | array ht _ ihx =>
    cases hts with
    | cons hhead htail =>
      obtain ⟨rest', hrest, xs', close', hxs, hx⟩ := ihx htail
      refine ⟨rest', hrest, _, ?_, .array (hhead.is rfl ht) hx⟩
      simp only [erase, mapSpans]
      rw [erase_list hxs]
  | emptyMap ht hc =>
    cases hts with
    | cons hhead htail =>
      cases htail with
      | cons hclose htail =>
        refine ⟨_, htail, _, ?_, .emptyMap (hhead.is rfl ht) (hclose.is rfl hc)⟩
        rfl
  | map ht _ ihe =>
    cases hts with
    | cons hhead htail =>
      obtain ⟨rest', hrest, es', close', hes, he⟩ := ihe htail
      refine ⟨rest', hrest, _, ?_, .map (hhead.is rfl ht) he⟩
      simp only [erase, mapSpans]
      rw [erase_entries hes]
  | group ht _ hc ihe =>
    cases hts with
    | cons hhead htail =>
      obtain ⟨crest', hcrest, e', herase, he⟩ := ihe htail
      cases hcrest with
      | cons hclose hrest => exact ⟨_, hrest, e', herase, .group (hhead.is rfl ht) he (hclose.is rfl hc)⟩
  | endElements hc =>
    cases hts with
    | cons hclose htail => exact ⟨_, htail, [], _, rfl, .endElements (hclose.is (word?_closer _) hc)⟩
  | lastElement _ hc ihx =>
    obtain ⟨crest', hcrest, x', herase, hx⟩ := ihx hts
    cases hcrest with
    | cons hclose hrest =>
      refine ⟨_, hrest, [x'], _, ?_, .lastElement hx (hclose.is (word?_closer _) hc)⟩
      rw [List.map_singleton, List.map_singleton, herase]
  | element _ hc _ ihx ihxs =>
    obtain ⟨cus', hcus, x', herase, hx⟩ := ihx hts
    cases hcus with
    | cons hcomma hus =>
      obtain ⟨rest', hrest, xs', close', hxs, hd⟩ := ihxs hus
      refine ⟨rest', hrest, x' :: xs', close', ?_, .element hx (hcomma.is rfl hc) hd⟩
      rw [List.map_cons, List.map_cons, herase, hxs]
  | lastEntry _ hcolon _ hc ihk ihv =>
    obtain ⟨cus', hcus, key', hkey, hk⟩ := ihk hts
    cases hcus with
    | cons hhead hus =>
      obtain ⟨crest', hcrest, value', hvalue, hv⟩ := ihv hus
      cases hcrest with
      | cons hclose hrest =>
        refine ⟨_, hrest, [(key', value')], _, ?_, .lastEntry hk (hhead.is rfl hcolon) hv (hclose.is rfl hc)⟩
        rw [List.map_singleton, List.map_singleton, Prod.map_apply, Prod.map_apply, hkey, hvalue]
  | entry _ hcolon _ hc _ ihk ihv ihes =>
    obtain ⟨cus', hcus, key', hkey, hk⟩ := ihk hts
    cases hcus with
    | cons hhead hus =>
      obtain ⟨cvs', hcvs, value', hvalue, hv⟩ := ihv hus
      cases hcvs with
      | cons hcomma hvs =>
        obtain ⟨rest', hrest, es', close', hes, hd⟩ := ihes hvs
        refine ⟨rest', hrest, (key', value') :: es', close', ?_,
          .entry hk (hhead.is rfl hcolon) hv (hcomma.is rfl hc) hd⟩
        rw [List.map_cons, List.map_cons, hes, Prod.map_apply, Prod.map_apply, hkey, hvalue]

/-! ### Parameters -/

theorem Items.exists_alike {ts ts' : List Token} {es : List Expr} (h : Items ts es)
    (hts : List.Forall₂ Token.Alike ts ts') : ∃ es', es'.map erase = es.map erase ∧ Items ts' es' := by
  induction h generalizing ts' with
  | nil =>
    cases hts
    exact ⟨[], rfl, .nil⟩
  | separator ht _ ih =>
    cases hts with
    | cons hhead htail =>
      obtain ⟨es', herases, hes⟩ := ih htail
      exact ⟨es', herases, .separator (ht.imp (hhead.is rfl) (hhead.is rfl)) hes⟩
  | expression he _ ih =>
    obtain ⟨rest', hrest, e', herase, he'⟩ := he.exists_alike hts
    obtain ⟨es', herases, hes⟩ := ih hrest
    refine ⟨e' :: es', ?_, .expression he' hes⟩
    rw [List.map_cons, List.map_cons, herase, herases]

theorem map_erase_ofItems {es es' : List Expr} (h : es'.map erase = es.map erase) :
    (ofItems es').map erase = (ofItems es).map erase := by
  have hlength := congrArg List.length h
  rw [List.length_map, List.length_map] at hlength
  match es, es', hlength with
  | [], [], _ => rfl
  | [e], [e'], _ => simpa [ofItems] using h
  | a :: b :: es, a' :: b' :: es', _ =>
    simp only [ofItems, Option.map_some, erase, mapSpans]
    rw [erase_list h]

end TemplateSyntax.Expr
