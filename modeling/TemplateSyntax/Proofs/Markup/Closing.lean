import TemplateSyntax.Proofs.Markup.Resuming
import TemplateSyntax.Proofs.Markup.Tiling

/-!
# Parameters close what they open

A fragment ends outside brackets and strings only, and so do the parameters of a token, which are fragments with blanks
between them (`closes_of_tokenize`).
-/

namespace TemplateSyntax.Markup

open Text (isTagBlank)

variable {e : Enclosure} {nesting : Nesting} {depth : Nat} {cs text rest : List Char}

/-! ### Closed texts -/

/-- Quotes and brackets. -/
def delimiters : List Char := ['"', '\'', '(', '[', '{', ')', ']', '}']

theorem notMem_delimiters {p : Char → Bool} (hp : delimiters.any p = false) {c : Char} (hc : p c = true) :
    c ∉ delimiters :=
  fun hmem => List.any_eq_false.mp hp c hmem hc

theorem notMem_delimiters_of_text {cs : List Char} (h : cs.any delimiters.contains = false) :
    ∀ c ∈ cs, c ∉ delimiters :=
  fun c hc hmem => List.any_eq_false.mp h c hc (List.contains_iff_mem.mpr hmem)

theorem step_plain_of_notMem {c : Char} (hc : c ∉ delimiters) (depth : Nat) :
    (Nesting.plain depth).step c = some (.plain depth) := by
  simp only [delimiters, List.mem_cons, List.not_mem_nil, or_false, not_or] at hc
  simp [Nesting.step, isQuote, opensBracket, closesBracket, hc]

/-- The text closes what is open at its start, and what it opens itself. -/
def Closes : Nesting → List Char → Prop
  | nesting, [] => nesting = .plain 0
  | nesting, c :: cs => ∃ nesting', nesting.step c = some nesting' ∧ Closes nesting' cs

theorem closes_append_iff {front : List Char} (hfront : ∀ c ∈ front, c ∉ delimiters) :
    Closes (.plain depth) (front ++ rest) ↔ Closes (.plain depth) rest := by
  induction front with
  | nil => exact Iff.rfl
  | cons c front ih =>
    obtain ⟨hc, hfront⟩ := List.forall_mem_cons.mp hfront
    rw [List.cons_append, Closes, step_plain_of_notMem hc]
    constructor
    · rintro ⟨nesting', hstep, hcloses⟩
      cases hstep
      exact (ih hfront).mp hcloses
    · exact fun hcloses => ⟨_, rfl, (ih hfront).mpr hcloses⟩

theorem closes_of_fragment (h : fragment e nesting cs = .ended text rest) {tail : List Char}
    (htail : Closes (.plain 0) tail) : Closes nesting (text ++ tail) := by
  induction cs generalizing nesting text with
  | nil => cases h
  | cons c cs ih =>
    obtain ⟨rfl, -, rfl, -⟩ | ⟨text', nesting', rfl, -, hstep, h⟩ := fragment_cons_eq_ended_iff.mp h
    · exact htail
    · exact ⟨nesting', hstep, ih h⟩

/-! ### Regions -/

theorem notMem_delimiters_of_isTagBlank {c : Char} (h : isTagBlank c = true) : c ∉ delimiters :=
  notMem_delimiters (by decide) h

theorem IsRegion.closes_piecesText {r : Region} (h : IsRegion e cs r rest) :
    Closes (.plain 0) (piecesText r.pieces) := by
  induction h with
  | marker => rfl
  | fragment hblanks _ hf _ ih =>
    rw [piecesText_cons, closes_append_iff fun c hc => notMem_delimiters_of_isTagBlank (hblanks c hc)]
    exact closes_of_fragment hf ih

theorem IsRegion.closes_params {r : Region} (h : IsRegion e cs r rest) {start : Nat} :
    ∀ p ∈ r.params? start, Closes (.plain 0) p.text.toList := by
  intro p hp
  cases h with
  | marker => cases hp
  | fragment _ _ hf hr =>
    cases hp
    rw [String.toList_ofList]
    exact closes_of_fragment hf hr.closes_piecesText

/-! ### Tokens -/

theorem Run.exists_read {xs : List Lexeme} {x : Lexeme} (h : Run cs xs rest) (hx : x ∈ xs) :
    ∃ ds after, Lexeme.read ds = .ok (x, after) := by
  induction h with
  | nil => cases hx
  | cons hne hread _ ih =>
    rcases List.mem_cons.mp hx with rfl | hx
    · exact ⟨_, _, hread⟩
    · exact ih hx

theorem exists_of_mem_tokensAt {start : Nat} {xs : List Lexeme} {t : Token} (h : t ∈ tokensAt start xs) :
    ∃ x ∈ xs, ∃ start', t = x.token start' := by
  induction xs generalizing start with
  | nil => cases h
  | cons x xs ih =>
    rcases List.mem_cons.mp h with rfl | h
    · exact ⟨x, List.mem_cons_self .., start, rfl⟩
    · obtain ⟨y, hy, start', rfl⟩ := ih h
      exact ⟨y, List.mem_cons_of_mem _ hy, start', rfl⟩

theorem Lexeme.closes_params {x : Lexeme} (h : Lexeme.read cs = .ok (x, rest)) {start : Nat} :
    ∀ p ∈ (x.token start).params, Closes (.plain 0) p.text.toList := by
  intro p hp
  have hview := lexemeView cs
  generalize Lexeme.read cs = k at h hview
  cases hview with
  | openComment => cases h
  | text | comment =>
    cases h
    cases hp
  | region hopens =>
    obtain ⟨r, rfl, hr⟩ := readRegion_eq_ok_iff.mp h
    cases hopens with
    | tag | interpolation => exact (isRegion_of_region hr).closes_params p hp

/-- The parameters of a token close all they open. -/
theorem closes_of_tokenize {source : String} {ts : List Token} (h : tokenize source = .ok ts) :
    ∀ t ∈ ts, ∀ p ∈ t.params, Closes (.plain 0) p.text.toList := by
  obtain ⟨xs, hrun, rfl⟩ := tokenize_eq_ok_iff.mp h
  intro t ht
  obtain ⟨x, hx, start, rfl⟩ := exists_of_mem_tokensAt ht
  obtain ⟨ds, after, hread⟩ := hrun.exists_read hx
  exact Lexeme.closes_params hread

end TemplateSyntax.Markup
