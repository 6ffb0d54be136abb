import TemplateSyntax.Proofs.Expr.Steps
import TemplateSyntax.Proofs.Expr.WellFormed

/-!
# Parameters with a separator between them

A separator is to the readers what the end of a text is: no token runs on into it, no expression goes on with it, and
what follows it is read as if nothing were in front. So behind parameters that are accepted and a separator others are
read as they are alone, and are wrong as they are alone (`parseAt_separated`).
-/

namespace TemplateSyntax.Expr

open Text (byteLength)

/-! ### Tokens -/

/-- A separator is a token, behind which reading goes on as at the start of a text. -/
theorem tokens_separator {sep : Char} (h : sep = ';' ∨ sep = ',') (cs : List Char) (offset : Nat)
    (afterOperand : Bool) :
    ∃ t : Token, (t.is .semicolon = true ∨ t.is .comma = true) ∧
      (⟨sep :: cs, offset, afterOperand⟩ : Cursor).tokens =
        (⟨cs, offset + 1, false⟩ : Cursor).tokens.map fun (us, stop) => (t :: us, stop) := by
  rcases h with rfl | rfl
  · have hread : readToken afterOperand ';' cs = ⟨[';'], cs, .ok (.punctuator .semicolon)⟩ := rfl
    exact ⟨_, .inl rfl, Cursor.tokens_of_readToken (by decide) hread offset⟩
  · have hread : readToken afterOperand ',' cs = ⟨[','], cs, .ok (.punctuator .comma)⟩ := rfl
    exact ⟨_, .inr rfl, Cursor.tokens_of_readToken (by decide) hread offset⟩

/-- The tokens of a text, the separator, and the tokens of another text. -/
theorem tokens_separated {sep : Char} (hsep : sep = ';' ∨ sep = ',') {first : String} {base stop : Nat}
    {ts : List Token} (hts : (Cursor.ofSource first base).tokens = .ok (ts, stop)) (second : String) :
    ∃ t : Token, (t.is .semicolon = true ∨ t.is .comma = true) ∧
      (Cursor.ofSource (first ++ String.singleton sep ++ second) base).tokens =
        (Cursor.ofSource second (base + byteLength first.toList + 1)).tokens.map fun (us, stop) =>
          (ts ++ t :: us, stop) := by
  obtain ⟨c', hreads, hblank, -⟩ := Cursor.exists_reads_of_tokens hts
  obtain ⟨t, ht, hseparator⟩ := tokens_separator hsep second.toList (c'.offset + byteLength c'.rest) c'.afterOperand
  refine ⟨t, ht, ?_⟩
  have hsource : Cursor.ofSource (first ++ String.singleton sep ++ second) base =
      ⟨first.toList ++ sep :: second.toList, base, false⟩ := by simp [Cursor.ofSource]
  have hsecond : Cursor.ofSource second (base + byteLength first.toList + 1) =
      ⟨second.toList, c'.offset + byteLength c'.rest + 1, false⟩ := by
    rw [hreads.byteLength_eq]
    rfl
  have htokens := (hreads.append (severs_separator hsep) second.toList).tokens_eq
  rw [Cursor.tokens_blanks hblank, hseparator] at htokens
  rw [hsource, hsecond]
  refine htokens.trans ?_
  cases (⟨second.toList, c'.offset + byteLength c'.rest + 1, false⟩ : Cursor).tokens <;> rfl

/-! ### Expressions -/

/-- What holds of the first token of a list and of the first one behind it holds of the first one of both. -/
theorem forall_head?_append {P : Token → Prop} {rest more : List Token} (hrest : ∀ t ∈ rest.head?, P t)
    (hmore : ∀ t ∈ more.head?, P t) : ∀ t ∈ (rest ++ more).head?, P t := by
  cases rest with
  | nil => exact hmore
  | cons t rest => exact hrest

/-- A phrase is the same in front of tokens that do not go on with it. -/
theorem Derives.append {p : Phrase} {ts rest more : List Token} (h : Derives p ts rest) (hmore : Stops more) :
    Derives p (ts ++ more) (rest ++ more) := by
  induction h with
  | expression _ _ hg ihu ihl => exact .expression ihu ihl hg
  | endLinks h => exact .endLinks (forall_head?_append h fun t ht => (hmore t ht).2)
  | link ht _ _ ihu ihl => exact .link ht ihu ihl
  | sign ht _ ihu => exact .sign ht ihu
  | leadingUpdate ht _ ha ihu => exact .leadingUpdate ht ihu ha
  | operand _ _ ihp ihs => exact .operand ihp ihs
  | endSuffixes h => exact .endSuffixes (forall_head?_append h fun t ht => (hmore t ht).1)
  | field ht hn _ ihs => exact .field ht hn ihs
  | index ht _ hc _ ihk ihs => exact .index ht ihk hc ihs
  | call ht _ _ iha ihs => exact .call ht iha ihs
  | trailingUpdate ht ha _ ihs => exact .trailingUpdate ht ha ihs
  | number ht => exact .number ht
  | string ht => exact .string ht
  | name ht => exact .name ht
  | array ht _ ihx => exact .array ht ihx
  | emptyMap ht hc => exact .emptyMap ht hc
  | map ht _ ihe => exact .map ht ihe
  | group ht _ hc ihe => exact .group ht ihe hc
  | endElements hc => exact .endElements hc
  | lastElement _ hc ihx => exact .lastElement ihx hc
  | element _ hc _ ihx ihxs => exact .element ihx hc ihxs
  | lastEntry _ hcolon _ hc ihk ihv => exact .lastEntry ihk hcolon ihv hc
  | entry _ hcolon _ hc _ ihk ihv ihes => exact .entry ihk hcolon ihv hc ihes

/-- Expressions are read in front of a separator as in front of the end. -/
theorem items_separated {ts us : List Token} {es : List Expr} (h : Items ts es) {t : Token}
    (ht : t.is .semicolon = true ∨ t.is .comma = true) (stop : Nat) :
    Reader.items stop (ts ++ t :: us) = (Reader.items stop us).map (es ++ ·) := by
  have hstops : Stops (t :: us) := by
    rcases ht with ht | ht
    · exact stops_cons ht (by decide) us
    · exact stops_cons ht (by decide) us
  induction h with
  | nil =>
    rw [List.nil_append, Reader.items_separator ht]
    cases Reader.items stop us <;> rfl
  | separator hsep _ ih => rw [List.cons_append, Reader.items_separator hsep, ih]
  | expression he _ ih =>
    rw [Reader.items_expression (he.append hstops), ih]
    cases Reader.items stop us <;> rfl

/-! ### Parameters -/

/-- The expressions side by side in parameters. Blank ones have none. -/
def itemsOf (r : Option Expr) : List Expr :=
  r.elim [] items

theorem itemsOf_ofItems {es : List Expr} (h : ∀ x ∈ es, x.Simple) : itemsOf (ofItems es) = es := by
  cases hof : ofItems es with
  | none => exact (ofItems_eq_none_iff.mp hof).symm
  | some e =>
    refine items_ofItems hof fun x hx => ?_
    cases h x hx <;> rfl

/-- Behind accepted parameters and a separator, others are wrong as they are alone, or their expressions follow. -/
theorem parseAt_separated {first second : String} {base : Nat} {sep : Char} {r : Option Expr}
    (h : parseAt first base = .ok r) (hsep : sep = ';' ∨ sep = ',') :
    let whole := parseAt (first ++ String.singleton sep ++ second) base
    match parseAt second (base + byteLength first.toList + 1) with
    | .error e => whole = .error e
    | .ok r' => ∃ both, whole = .ok both ∧ itemsOf both = itemsOf r ++ itemsOf r' ∧ both = ofItems (itemsOf both) := by
  obtain ⟨ts, stop, es, hts, hes, rfl⟩ := parseAt_eq_ok_iff.mp h
  obtain ⟨t, ht, htokens⟩ := tokens_separated hsep hts second
  rw [parseAt, parseAt, htokens]
  cases htokens' : (Cursor.ofSource second (base + byteLength first.toList + 1)).tokens with
  | error e => rfl
  | ok p =>
    obtain ⟨us, stop'⟩ := p
    dsimp only [Except.map]
    rw [items_separated hes ht]
    cases hitems : Reader.items stop' us with
    | error e => rfl
    | ok es' =>
      have hsimple := simple_of_items hes (Cursor.spelled_of_tokens hts)
      have hsimple' := simple_of_items (Reader.items_eq_ok_iff.mp hitems) (Cursor.spelled_of_tokens htokens')
      have hboth := itemsOf_ofItems (List.forall_mem_append.mpr ⟨hsimple, hsimple'⟩)
      refine ⟨ofItems (es ++ es'), rfl, ?_, ?_⟩
      · rw [hboth, itemsOf_ofItems hsimple, itemsOf_ofItems hsimple']
      · rw [hboth]

/-- Behind a separator a period may start a number again. -/
theorem parseAt_separated_fraction :
    ∃ r r' both, parseAt "a b" 0 = .ok r ∧ parseAt ".5" 4 = .ok r' ∧ parseAt "a b;.5" 0 = .ok both ∧
      itemsOf both = itemsOf r ++ itemsOf r' ∧ (itemsOf both).map span = [⟨0, 1⟩, ⟨2, 3⟩, ⟨4, 6⟩] := by
  have hfirst : (parseAt "a b" 0).toOption.any (fun r => (itemsOf r).map span = [⟨0, 1⟩, ⟨2, 3⟩]) = true := by
    decide +kernel
  have hsecond : (parseAt ".5" 4).toOption.any (fun r => (itemsOf r).map span = [⟨4, 6⟩]) = true := by decide +kernel
  obtain ⟨r, hr, hspans⟩ := exists_eq_ok_of_any hfirst
  obtain ⟨r', hr', hspans'⟩ := exists_eq_ok_of_any hsecond
  have hseparated := @parseAt_separated "a b" ".5" 0 ';' r hr (.inl rfl)
  have hbase : 0 + byteLength "a b".toList + 1 = 4 := by decide
  have hwhole : "a b" ++ String.singleton ';' ++ ".5" = "a b;.5" := by decide
  rw [hbase, hr', hwhole] at hseparated
  obtain ⟨both, hboth, hitems, -⟩ := hseparated
  refine ⟨r, r', both, hr, hr', hboth, hitems, ?_⟩
  rw [hitems, List.map_append, of_decide_eq_true hspans, of_decide_eq_true hspans']
  rfl

end TemplateSyntax.Expr
