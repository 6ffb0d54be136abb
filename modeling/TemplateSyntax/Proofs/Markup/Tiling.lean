import TemplateSyntax.Markup.Scan
import TemplateSyntax.Proofs.Text.Utf8

/-!
# Tokens tile the template

Lexemes are the text cut into pieces, so the tokens of a template lie side by side from its first byte to its last, and
each of them keeps the text that it covers. The parameters of a token and their fragments lie inside it and keep theirs
(`tiles_of_tokenize`).
-/

namespace TemplateSyntax.Markup

open Text (byteLength byteLength_pos slice? slice?_eq_some_iff)

/-! ### Places -/

/-- The text stands at the span of the source. Both ends of the span are then boundaries of characters. -/
def Covers (source : List Char) (s : Span) (text : String) : Prop :=
  slice? source s = some text.toList

/-- The tokens lie side by side from `start` to `stop`, none of them empty. -/
def Contiguous : (start : Nat) → List Token → (stop : Nat) → Prop
  | start, [], stop => start = stop
  | start, t :: ts, stop => t.span.start = start ∧ start < t.span.stop ∧ Contiguous t.span.stop ts stop

/-- The parameters and their fragments stand inside the token, with their texts. -/
structure Params.InPlace (source : List Char) (token : Span) (p : Params) : Prop where
  inside : token.start < p.span.start ∧ p.span.stop < token.stop
  covers : Covers source p.span p.text
  fragments : ∀ f ∈ p.fragments, p.span.contains f.span = true ∧ Covers source f.span f.text

structure Token.InPlace (source : List Char) (t : Token) : Prop where
  covers : Covers source t.span t.raw
  params : ∀ p ∈ t.params, p.InPlace source t.span

/-- The tokens are the whole source, piece by piece. -/
structure Tiles (source : String) (ts : List Token) : Prop where
  contiguous : Contiguous 0 ts (byteLength source.toList)
  inPlace : ∀ t ∈ ts, t.InPlace source.toList
  raws : String.join (ts.map Token.raw) = source

theorem covers_append (before mid after : List Char) {start : Nat} (hstart : start = byteLength before) :
    Covers (before ++ mid ++ after) ⟨start, start + byteLength mid⟩ (String.ofList mid) := by
  rw [Covers, String.toList_ofList, slice?_eq_some_iff, hstart]
  exact ⟨before, after, rfl, rfl⟩

/-! ### Parameters -/

def piecesText (pieces : List (List Char × List Char)) : List Char :=
  pieces.flatMap fun p => p.1 ++ p.2

theorem piecesText_cons (blanks text : List Char) (pieces : List (List Char × List Char)) :
    piecesText ((blanks, text) :: pieces) = blanks ++ (text ++ piecesText pieces) := by
  rw [piecesText, List.flatMap_cons, List.append_assoc]
  rfl

/-- The fragments behind `before` stand where their texts do. -/
theorem covers_fragmentsAt (before after : List Char) {pieces : List (List Char × List Char)} {start : Nat}
    (hstart : start = byteLength before) :
    ∀ f ∈ fragmentsAt start pieces, start ≤ f.span.start ∧ f.span.stop ≤ start + byteLength (piecesText pieces) ∧
      Covers (before ++ piecesText pieces ++ after) f.span f.text := by
  induction pieces generalizing before start with
  | nil => exact fun f hf => nomatch hf
  | cons piece pieces ih =>
    obtain ⟨blanks, text⟩ := piece
    rw [piecesText_cons]
    refine List.forall_mem_cons.mpr ⟨⟨Nat.le_add_right .., ?_, ?_⟩, ?_⟩
    · simp only [Text.byteLength_append]
      omega
    · have hfirst : start + byteLength blanks = byteLength (before ++ blanks) := by rw [hstart, Text.byteLength_append]
      have hcovers := covers_append (before ++ blanks) text (piecesText pieces ++ after) hfirst
      simpa using hcovers
    · intro f hf
      have hlast : start + byteLength blanks + byteLength text = byteLength (before ++ blanks ++ text) := by
        rw [hstart, Text.byteLength_append, Text.byteLength_append]
      obtain ⟨hle, hge, hcovers⟩ := ih (before ++ blanks ++ text) hlast f hf
      refine ⟨by omega, ?_, by simpa using hcovers⟩
      simp only [Text.byteLength_append]
      omega

/-- The blanks in front of the first fragment only move it. -/
theorem fragmentsAt_cons (start : Nat) (blanks text : List Char) (pieces : List (List Char × List Char)) :
    fragmentsAt start ((blanks, text) :: pieces) = fragmentsAt (start + byteLength blanks) (([], text) :: pieces) := rfl

/-- The parameters of a region behind `before` stand where their text does. -/
theorem Region.inPlace_params? (before after : List Char) {r : Region} {start : Nat} {token : Span} {p : Params}
    (hstart : start = byteLength before) (hp : r.params? start = some p) (htoken : token.start < start)
    (hstop : token.stop = start + byteLength r.chars) : p.InPlace (before ++ r.chars ++ after) token := by
  obtain ⟨pieces, blanks, marker⟩ := r
  have hmarker : 0 < byteLength marker.text := byteLength_pos (by cases marker <;> simp [Marker.text])
  match pieces with
  | [] => cases hp
  | (first, text) :: pieces =>
    cases hp
    have hsource : before ++ (Region.mk ((first, text) :: pieces) blanks marker).chars ++ after =
        before ++ first ++ (text ++ piecesText pieces) ++ (blanks ++ marker.text ++ after) := by
      simp [Region.chars, piecesText]
    have hfirst : start + byteLength first = byteLength (before ++ first) := by rw [hstart, Text.byteLength_append]
    rw [hsource]
    refine ⟨⟨?_, ?_⟩, covers_append _ _ _ hfirst, fun f hf => ?_⟩
    · dsimp only
      omega
    · dsimp only
      rw [hstop, Region.chars, Text.byteLength_append, Text.byteLength_append, List.flatMap_cons]
      simp only [Text.byteLength_append]
      omega
    · rw [fragmentsAt_cons] at hf
      obtain ⟨hle, hge, hcovers⟩ := covers_fragmentsAt (before ++ first) (blanks ++ marker.text ++ after) hfirst f hf
      exact ⟨Span.contains_iff.mpr ⟨hle, hge⟩, hcovers⟩

/-! ### Tokens -/

theorem Lexeme.inPlace_token (before after : List Char) (x : Lexeme) {start : Nat} (hstart : start = byteLength before) :
    (x.token start).InPlace (before ++ x.chars ++ after) := by
  refine ⟨covers_append _ _ _ hstart, fun p hp => ?_⟩
  -- the parameters of a region lie behind its opening
  have hregion {opening : List Char} {region : Region} (hchars : x.chars = opening ++ region.chars)
      (hopening : opening ≠ []) (hp : region.params? (start + byteLength opening) = some p) :
      p.InPlace (before ++ x.chars ++ after) (x.token start).span := by
    have hinPlace : p.InPlace _ (x.token start).span := Region.inPlace_params? (before ++ opening) after
      (by rw [hstart, Text.byteLength_append]) hp (Nat.lt_add_of_pos_right (byteLength_pos hopening))
      (by rw [show (x.token start).span.stop = start + byteLength x.chars from rfl, hchars, Text.byteLength_append,
        Nat.add_assoc])
    rw [hchars]
    simpa using hinPlace
  cases x with
  | text | comment => cases hp
  | tag opener name region =>
    refine hregion (by rw [chars, List.append_assoc]) ?_ hp
    rcases opener with ⟨_ | _, _ | _⟩ <;> simp [TagOpener.text]
  | interpolation region => exact hregion rfl (by decide) hp

/-- The lexemes of a text that is read to its end are the text, and none of them is empty. -/
theorem flatMap_chars_of_lexemes {cs : List Char} {xs : List Lexeme} (h : lexemes cs = (xs, none)) :
    xs.flatMap Lexeme.chars = cs ∧ ∀ x ∈ xs, x.chars ≠ [] := by
  induction hn : cs.length using Nat.strongRecOn generalizing cs xs with
  | ind n ih =>
    cases cs with
    | nil =>
      rw [lexemes] at h
      cases h
      exact ⟨rfl, fun x hx => absurd hx List.not_mem_nil⟩
    | cons c cs =>
      rw [lexemes_cons] at h
      split at h
      · next x rest hread =>
        obtain ⟨rfl, hnone⟩ := Prod.mk.inj h
        have hlt := Lexeme.length_lt_of_read hread
        obtain ⟨hrest, hne⟩ := ih rest.length (hn ▸ hlt) (Prod.ext rfl hnone) rfl
        rw [List.flatMap_cons, hrest]
        exact ⟨(Lexeme.append_of_read hread).symm, List.forall_mem_cons.mpr ⟨Lexeme.chars_ne_nil hread, hne⟩⟩
      · cases h

theorem contiguous_tokensAt {xs : List Lexeme} (h : ∀ x ∈ xs, x.chars ≠ []) (start : Nat) :
    Contiguous start (tokensAt start xs) (start + byteLength (xs.flatMap Lexeme.chars)) := by
  induction xs generalizing start with
  | nil => rfl
  | cons x xs ih =>
    obtain ⟨hx, hxs⟩ := List.forall_mem_cons.mp h
    refine ⟨rfl, Nat.lt_add_of_pos_right (byteLength_pos hx), ?_⟩
    rw [List.flatMap_cons, Text.byteLength_append, ← Nat.add_assoc]
    exact ih hxs _

theorem inPlace_tokensAt (before after : List Char) {xs : List Lexeme} {start : Nat} (hstart : start = byteLength before) :
    ∀ t ∈ tokensAt start xs, t.InPlace (before ++ xs.flatMap Lexeme.chars ++ after) := by
  induction xs generalizing before start with
  | nil => exact fun t ht => nomatch ht
  | cons x xs ih =>
    rw [List.flatMap_cons]
    refine List.forall_mem_cons.mpr ⟨?_, fun t ht => ?_⟩
    · have hinPlace := Lexeme.inPlace_token before (xs.flatMap Lexeme.chars ++ after) x hstart
      simpa using hinPlace
    · have hinPlace := ih (before ++ x.chars) (by rw [hstart, Text.byteLength_append]) t ht
      simpa using hinPlace

theorem join_raw_tokensAt (xs : List Lexeme) (start : Nat) :
    String.join ((tokensAt start xs).map Token.raw) = String.ofList (xs.flatMap Lexeme.chars) := by
  induction xs generalizing start with
  | nil => rfl
  | cons x xs ih =>
    rw [tokensAt, List.map_cons, String.join_cons, ih, List.flatMap_cons, String.ofList_append]
    rfl

/-- The tokens of a template tile it. -/
theorem tiles_of_tokenize {source : String} {ts : List Token} (h : tokenize source = .ok ts) : Tiles source ts := by
  have hlexemes : lexemes source.toList = ((lexemes source.toList).1, none) := by
    unfold tokenize scan scanAt at h
    split at h
    · next hnone =>
      obtain ⟨-, hnone⟩ := Prod.mk.inj hnone
      exact Prod.ext rfl (Option.map_eq_none_iff.mp hnone)
    · cases h
  have hts : ts = tokensAt 0 (lexemes source.toList).1 := by
    rw [tokenize, scan, scanAt, hlexemes] at h
    exact (Except.ok.inj h).symm
  obtain ⟨hchars, hne⟩ := flatMap_chars_of_lexemes hlexemes
  rw [hts]
  refine ⟨?_, ?_, ?_⟩
  · have hcontiguous := contiguous_tokensAt hne 0
    rwa [hchars, Nat.zero_add] at hcontiguous
  · intro t ht
    have hinPlace := inPlace_tokensAt [] [] rfl t ht
    rw [hchars] at hinPlace
    simpa using hinPlace
  · rw [join_raw_tokensAt, hchars, String.ofList_toList]

end TemplateSyntax.Markup
