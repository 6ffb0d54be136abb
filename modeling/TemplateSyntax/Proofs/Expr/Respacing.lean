import TemplateSyntax.Proofs.Expr.Relocation
import TemplateSyntax.Proofs.Expr.Steps

/-!
# Other blanks between the tokens

Blanks keep tokens apart and do nothing else. So if the tokens of a text are written with other blanks around them, and
some between any two, they are the same tokens, and the same is read of them or is wrong with them, other places apart
(`parseAt_respaced`).
-/

namespace TemplateSyntax.Expr

open Text (isBlank byteLength)

/-! ### Tokens with blanks around them -/

/-- The text of the tokens, each of them behind its own gap, with `last` behind them all. -/
def respaced (spaced : List (List Char × Token)) (last : List Char) : List Char :=
  spaced.flatMap (fun (gap, t) => gap ++ t.text.toList) ++ last

/-- The gaps are blank, and no two tokens touch. -/
structure Spaces (spaced : List (List Char × Token)) (last : List Char) : Prop where
  blank : ∀ p ∈ spaced, ∀ b ∈ p.1, isBlank b = true
  apart : ∀ p ∈ spaced.tail, p.1 ≠ []
  last : ∀ b ∈ last, isBlank b = true

theorem spaces_iff {spaced : List (List Char × Token)} {last : List Char} :
    Spaces spaced last ↔
      spaced.all (fun p => p.1.all isBlank) = true ∧ spaced.tail.all (fun p => !p.1.isEmpty) = true ∧
        last.all isBlank = true := by
  simp only [List.all_eq_true, Bool.not_eq_true', List.isEmpty_eq_false_iff]
  constructor
  · exact fun h => ⟨h.blank, h.apart, h.last⟩
  · exact fun ⟨hblank, hapart, hlast⟩ => ⟨hblank, hapart, hlast⟩

instance (spaced : List (List Char × Token)) (last : List Char) : Decidable (Spaces spaced last) :=
  decidable_of_iff' _ spaces_iff

variable {gap last : List Char} {t : Token} {spaced : List (List Char × Token)}

theorem respaced_cons (gap : List Char) (t : Token) (spaced : List (List Char × Token)) (last : List Char) :
    respaced ((gap, t) :: spaced) last = gap ++ (t.text.toList ++ respaced spaced last) := by
  simp [respaced]

theorem Spaces.tail (h : Spaces ((gap, t) :: spaced) last) : Spaces spaced last where
  blank p hp := h.blank p (List.mem_cons_of_mem _ hp)
  apart p hp := h.apart p (List.mem_of_mem_tail hp)
  last := h.last

/-- Behind a token a blank follows, or nothing at all. -/
theorem Spaces.loosens (h : Spaces ((gap, t) :: spaced) last) (rest : List Char) :
    Loosens rest (respaced spaced last) := by
  refine .inr fun c hc => severs_of_isBlank ?_
  cases spaced with
  | nil => exact h.last c (List.mem_of_mem_head? hc)
  | cons p spaced =>
    obtain ⟨gap', u⟩ := p
    obtain ⟨b, bs, rfl⟩ := List.exists_cons_of_ne_nil (h.apart _ (List.mem_cons_self ..))
    rw [respaced_cons] at hc
    cases hc
    exact h.blank _ (List.mem_cons_of_mem _ (List.mem_cons_self ..)) c (List.mem_cons_self ..)

/-! ### Tokens without their places -/

/-- Every place is forgotten. -/
def nowhere : Span → Span :=
  fun _ => ⟨0, 0⟩

theorem keepsJoins_nowhere : Span.KeepsJoins nowhere :=
  fun _ _ => rfl

/-- The tokens of a text are read again with other blanks around them. -/
theorem Cursor.Reads.respaced {c c' : Cursor} {ts : List Token} (h : c.Reads ts c')
    (hts : spaced.map Prod.snd = ts) (hspaces : Spaces spaced last) (offset : Nat) :
    ∃ ts' c'', (⟨Expr.respaced spaced last, offset, c.afterOperand⟩ : Cursor).Reads ts' c'' ∧ c''.rest = last ∧
      ts'.map (Token.mapSpan nowhere) = ts.map (Token.mapSpan nowhere) := by
  induction h generalizing spaced offset with
  | done c =>
    obtain rfl := List.map_eq_nil_iff.mp hts
    exact ⟨[], _, .done _, rfl, rfl⟩
  | @step c c₁ c₂ t ts h ht _ ih =>
    obtain ⟨⟨gap, u⟩, spaced, rfl, rfl, htail⟩ := List.map_eq_cons_iff.mp hts
    have hgap : ∀ b ∈ gap, isBlank b = true := hspaces.blank _ (List.mem_cons_self ..)
    have hnext := next_loosens h ht (fun _ _ _ => rfl) hgap (hspaces.loosens c₁.rest) offset
    rw [← respaced_cons] at hnext
    obtain ⟨ts', c'', hreads, hrest, hsame⟩ := ih htail hspaces.tail (offset + byteLength gap + byteLength _)
    exact ⟨_, c'', .step hnext ht hreads, hrest, congrArg (List.cons (Token.mapSpan nowhere u)) hsame⟩

/-! ### Parameters with other blanks -/

/-- The same expression is read, its places apart, or the same is wrong. -/
def EqUpToPlaces : Except ExprError (Option Expr) → Except ExprError (Option Expr) → Prop
  | .ok r, .ok r' => r'.map erase = r.map erase
  | .error e, .error e' => e'.fault = e.fault
  | _, _ => False

theorem eqUpToPlaces_of_relocate {answer answer' : Except ExprError (Option Expr)}
    (h : relocate nowhere (Option.map erase) answer' = relocate nowhere (Option.map erase) answer) :
    EqUpToPlaces answer answer' := by
  cases answer with
  | ok r =>
    cases answer' with
    | ok r' => exact Except.ok.inj h
    | error e' => cases h
  | error e =>
    cases answer' with
    | ok r' => cases h
    | error e' =>
      have herror : e'.mapSpan nowhere = e.mapSpan nowhere := Except.error.inj h
      exact (ExprError.mk.inj herror).1

/-- Tokens at other places make the same. -/
theorem eqUpToPlaces_items {ts ts' : List Token} (h : ts'.map (Token.mapSpan nowhere) = ts.map (Token.mapSpan nowhere))
    (stop stop' : Nat) :
    EqUpToPlaces ((Reader.items stop ts).map ofItems) ((Reader.items stop' ts').map ofItems) := by
  have hforget (ts : List Token) (stop : Nat) :
      relocate nowhere (Option.map erase) ((Reader.items stop ts).map ofItems) =
        (Reader.items 0 (ts.map (Token.mapSpan nowhere))).map ofItems :=
    (map_ofItems_items_mapSpan keepsJoins_nowhere rfl ts).symm
  refine eqUpToPlaces_of_relocate ?_
  rw [hforget, hforget, h]

/-- With other blanks between its tokens a text has the same tokens, and the same is read of it or is wrong with it. -/
theorem parseAt_respaced {source : String} {base stop : Nat} {spaced : List (List Char × Token)} {last : List Char}
    (hts : tokenizeAt source base = .ok (spaced.map Prod.snd ++ [endToken stop])) (hspaces : Spaces spaced last)
    (base' : Nat) :
    let text := String.ofList (respaced spaced last)
    (∃ ts' stop', tokenizeAt text base' = .ok (ts' ++ [endToken stop']) ∧
      ts'.map (fun t => (t.kind, t.text)) = spaced.map fun p => (p.2.kind, p.2.text)) ∧
    EqUpToPlaces (parseAt source base) (parseAt text base') := by
  intro text
  have hcursor := tokenizeAt_eq_ok_iff.mp hts
  obtain ⟨c', hreads, -, -⟩ := Cursor.exists_reads_of_tokens hcursor
  obtain ⟨ts', c'', hreads', hrest, hsame⟩ := hreads.respaced rfl hspaces base'
  have hcursor' : (Cursor.ofSource text base').tokens = .ok (ts', c''.offset + byteLength c''.rest) := by
    rw [Cursor.ofSource, String.toList_ofList]
    exact hreads'.tokens_eq_ok (hrest.symm ▸ hspaces.last)
  refine ⟨⟨ts', _, tokenizeAt_eq_ok_iff.mpr hcursor', ?_⟩, ?_⟩
  · have hkinds := congrArg (List.map fun t : Token => (t.kind, t.text)) hsame
    rwa [List.map_map, List.map_map, List.map_map] at hkinds
  · rw [parseAt, parseAt, hcursor, hcursor']
    exact eqUpToPlaces_items hsame _ _

/-- The period of a number stays with its digits, and that of a field may be parted from its name. -/
theorem parseAt_respaced_fraction :
    ∃ ts, tokenizeAt "a.b<.5" 0 = .ok (ts ++ [endToken 6]) ∧ ts.map Token.text = ["a", ".", "b", "<", ".5"] ∧
      EqUpToPlaces (parseAt "a.b<.5" 0) (parseAt "a . b\t<\n.5 " 7) := by
  let spaced (ts : List Token) : List (List Char × Token) := [[], [' '], [' '], ['\t'], ['\n']].zip ts
  have htokens : (Cursor.ofSource "a.b<.5" 0).tokens.toOption.any (fun answer =>
      answer.2 = 6 ∧ answer.1.map Token.text = ["a", ".", "b", "<", ".5"] ∧ (spaced answer.1).map Prod.snd = answer.1 ∧
        Spaces (spaced answer.1) [' '] ∧
        String.ofList (respaced (spaced answer.1) [' ']) = "a . b\t<\n.5 ") = true := by decide +kernel
  obtain ⟨⟨ts, stop⟩, hts, hspaced⟩ := exists_eq_ok_of_any htokens
  obtain ⟨rfl, htexts, hsnd, hspaces, htext⟩ : stop = 6 ∧ _ ∧ (spaced ts).map Prod.snd = ts ∧ _ :=
    of_decide_eq_true hspaced
  have htokenize := tokenizeAt_eq_ok_iff.mpr hts
  rw [← hsnd] at htokenize
  obtain ⟨-, hsame⟩ := parseAt_respaced htokenize hspaces 7
  rw [htext] at hsame
  exact ⟨ts, tokenizeAt_eq_ok_iff.mpr hts, htexts, hsame⟩

end TemplateSyntax.Expr
