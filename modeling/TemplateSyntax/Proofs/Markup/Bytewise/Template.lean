import TemplateSyntax.Proofs.Markup.Bytewise.Region

/-!
# Templates byte by byte

The scanner of bytes finds text and markup where the lexemes of the template are. Every cut it makes succeeds, so its
result is that of scanning character by character (`Bytewise.tokenize?_eq`), and the tokens tile the template
(`tokenize?_tiles`).
-/

namespace TemplateSyntax.Markup

open Text (byteLength utf8 latin slice?)

namespace Bytewise

/-! ### Markup -/

section Markup

variable {source before cs : List Char}

theorem slice?_behind (hsource : source = before ++ cs) {mid rest : List Char} (hcs : cs = mid ++ rest) :
    slice? source ⟨byteLength before, byteLength before + byteLength mid⟩ = some mid := by
  rw [Text.slice?_eq_some_iff, hsource, hcs]
  exact ⟨before, rest, by simp, rfl⟩

/-- What is read of a text at an offset: a token and the offset behind it, or an error. -/
def readAt (start : Nat) (cs : List Char) : Scanned :=
  match Lexeme.read cs with
  | .ok (x, _) => .ok (x.token start, start + byteLength x.chars)
  | .error failure => .error (failure.error start cs)

theorem scanComment_eq (hsource : source = before ++ cs) {rest : List Char} (ho : opener? cs = some (.comment, rest)) :
    scanComment source (byteLength before) = some (readAt (byteLength before) cs) := by
  have hcs : cs = commentOpen ++ rest := append_of_opener? ho
  have hlength : byteLength source = byteLength before + commentOpen.length + byteLength rest := by
    rw [hsource, hcs, Text.byteLength_append, Text.byteLength_append, ← Nat.add_assoc]
    rfl
  have hrest : slice? source ⟨byteLength before + commentOpen.length, byteLength source⟩ = some rest := by
    rw [Text.slice?_eq_some_iff, hlength, hsource, hcs]
    exact ⟨before ++ commentOpen, [], by simp, by rw [Text.byteLength_append]; rfl⟩
  rw [scanComment, hrest, readAt, Lexeme.read, ho]
  dsimp only [Option.bind_some]
  rw [seek_utf8 detects_closeAt, seekText_closeAt]
  cases hbody : commentBody? rest with
  | none =>
    simp [Failure.error, hsource]
  | some r =>
    obtain ⟨body, rest'⟩ := r
    have hchars : cs = (Lexeme.comment body).chars ++ rest' := by
      rw [hcs, append_of_commentBody? hbody]
      simp [Lexeme.chars]
    have hslice := slice?_behind hsource hchars
    have hstop : byteLength before + commentOpen.length + byteLength body + commentClose.length =
        byteLength before + byteLength (Lexeme.comment body).chars := by
      rw [Lexeme.chars, Text.byteLength_append, Text.byteLength_append, ← Nat.add_assoc, ← Nat.add_assoc]
      rfl
    dsimp only [Option.map_some]
    rw [hstop, token?, hslice]
    rfl

/-- A region in markup that begins with `opening`. -/
theorem scanned_eq {e : Enclosure} {opening rest : List Char} {build : Region → Lexeme}
    {token? : Option Params → Marker → Nat → Option Token} (hsource : source = before ++ (opening ++ rest))
    (hchars : ∀ r, (build r).chars = opening ++ r.chars)
    (htoken : ∀ r after, opening ++ rest = (build r).chars ++ after →
      token? (r.params? (byteLength before + byteLength opening)) r.marker
        (byteLength before + byteLength (build r).chars) = some ((build r).token (byteLength before))) :
    (scanRegion source e (byteLength before + byteLength opening) ⟨[], none, none, 0⟩ (utf8 rest)).bind
        (scanned source (byteLength before) opening token?) =
      some (match readRegion e opening build rest with
        | .ok (x, _) => .ok (x.token (byteLength before), byteLength before + byteLength x.chars)
        | .error failure => .error (failure.error (byteLength before) (opening ++ rest))) := by
  have hbefore : source = before ++ opening ++ rest := by rw [hsource, List.append_assoc]
  have hregion := scanRegion_eq (e := e) (before ++ opening) rest hbefore
  rw [Text.byteLength_append] at hregion
  rw [hregion, readRegion]
  cases hr : region e rest with
  | ended r after =>
    have hafter : opening ++ rest = (build r).chars ++ after := by
      rw [hchars, append_of_region hr, List.append_assoc]
    have hstop : byteLength before + byteLength opening + byteLength r.chars =
        byteLength before + byteLength (build r).chars := by
      rw [hchars, Text.byteLength_append, Nat.add_assoc]
    dsimp only [Option.bind_some]
    rw [hstop, scanned, htoken r after hafter]
    rfl
  | underflow bytes => simp [scanned, Failure.error, Nat.add_assoc]
  | ranOut => simp [scanned, Failure.error, hsource]

theorem nameLength_eq (cs : List Char) :
    ((seek nameStopAt (utf8 cs)).map Prod.fst).getD (utf8 cs).length = byteLength (nameRun cs).1 := by
  rw [seek_utf8 detects_nameStopAt, ← seekText_nameStopAt]
  cases seekText nameStopAt cs with
  | none => exact Text.length_utf8 cs
  | some r => rfl

/-- An end marker right behind the name ends a region without fragments. -/
theorem scanRegionOfName_eq (pos : Nat) (rest : List Char) :
    scanRegionOfName source pos (utf8 rest) = scanRegion source .tag pos ⟨[], none, none, 0⟩ (utf8 rest) := by
  rw [scanRegionOfName, marker?_latin_utf8]
  cases h : Enclosure.tag.marker? rest with
  | none => rfl
  | some r =>
    rw [scanRegion_marker h]
    rfl

theorem byteLength_tagOpener (o : TagOpener) : byteLength o.text = o.text.length := by
  rcases o with ⟨_ | _, _ | _⟩ <;> rfl

theorem scanTag_eq (hsource : source = before ++ cs) {opener : TagOpener} {rest : List Char}
    (ho : opener? cs = some (.tag opener, rest)) :
    scanTag source opener (byteLength before) = some (readAt (byteLength before) cs) := by
  have hcs : cs = opener.text ++ rest := append_of_opener? ho
  have hname := append_nameRun rest
  have hrest : (utf8 source).drop (byteLength before + opener.text.length) = utf8 rest := by
    rw [← byteLength_tagOpener, ← Text.byteLength_append, hsource, hcs, ← List.append_assoc]
    exact Text.drop_utf8_append _ _
  rw [scanTag, readAt, Lexeme.read, ho]
  dsimp only
  rw [hrest, nameLength_eq]
  generalize (nameRun rest).1 = name at *
  generalize (nameRun rest).2 = rest' at *
  subst hname
  have hopening : byteLength before + opener.text.length + byteLength name =
      byteLength before + byteLength (opener.text ++ name) := by
    rw [Text.byteLength_append, byteLength_tagOpener, Nat.add_assoc]
  have hslice : slice? source ⟨byteLength before + opener.text.length, byteLength before + opener.text.length +
      byteLength name⟩ = some name := by
    rw [← byteLength_tagOpener, ← Text.byteLength_append]
    have hbefore : source = before ++ opener.text ++ (name ++ rest') := by simp [hsource, hcs]
    exact slice?_behind hbefore rfl
  have hrest' : (utf8 source).drop (byteLength before + byteLength (opener.text ++ name)) = utf8 rest' := by
    rw [← Text.byteLength_append, show source = before ++ (opener.text ++ name) ++ rest' by simp [hsource, hcs]]
    exact Text.drop_utf8_append _ _
  have hsource' : source = before ++ (opener.text ++ name ++ rest') := by rw [hsource, hcs, List.append_assoc]
  have hchars (r : Region) : (Lexeme.tag opener name r).chars = opener.text ++ name ++ r.chars := rfl
  rw [hslice, hopening, hrest', Option.bind_some, scanRegionOfName_eq, scanned_eq hsource' hchars]
  · rw [hcs, List.append_assoc]
  · intro r after hafter
    rw [token?, slice?_behind hsource' hafter]
    rfl

theorem scanInterpolation_eq (hsource : source = before ++ cs) {rest : List Char}
    (ho : opener? cs = some (.interpolation, rest)) :
    scanInterpolation source (byteLength before) = some (readAt (byteLength before) cs) := by
  have hcs : cs = interpolationOpen ++ rest := append_of_opener? ho
  have hrest : (utf8 source).drop (byteLength before + byteLength interpolationOpen) = utf8 rest := by
    rw [← Text.byteLength_append, hsource, hcs, ← List.append_assoc]
    exact Text.drop_utf8_append _ _
  have hsource' : source = before ++ (interpolationOpen ++ rest) := by rw [hsource, hcs]
  rw [scanInterpolation, readAt, Lexeme.read, ho, show interpolationOpen.length = byteLength interpolationOpen from rfl]
  dsimp only
  have hchars (r : Region) : (Lexeme.interpolation r).chars = interpolationOpen ++ r.chars := rfl
  rw [hrest, scanned_eq hsource' hchars, hcs]
  intro r after hafter
  rw [token?, slice?_behind hsource' hafter]
  rfl

theorem scanMarkup_eq (hsource : source = before ++ cs) {opener : Opener} {rest : List Char}
    (ho : opener? cs = some (opener, rest)) :
    scanMarkup source opener (byteLength before) = some (readAt (byteLength before) cs) := by
  cases opener with
  | comment => exact scanComment_eq hsource ho
  | tag opener => exact scanTag_eq hsource ho
  | interpolation => exact scanInterpolation_eq hsource ho

end Markup

/-! ### Templates -/

/-- The tokens of a text that starts at an offset, or the error that ends them. -/
def tokenizeAt (start : Nat) (cs : List Char) : Except ScanError (List Token) :=
  match scanAt start cs with
  | (tokens, none) => .ok tokens
  | (_, some error) => .error error

theorem tokenizeAt_nil (start : Nat) : tokenizeAt start [] = .ok [] := by
  rw [tokenizeAt, scanAt, lexemes]
  rfl

theorem tokenizeAt_cons (start : Nat) (c : Char) (cs : List Char) :
    tokenizeAt start (c :: cs) =
      match Lexeme.read (c :: cs) with
      | .ok (x, rest) => (tokenizeAt (start + byteLength x.chars) rest).map fun ts => x.token start :: ts
      | .error failure => .error (failure.error start (c :: cs)) := by
  unfold tokenizeAt scanAt
  rw [lexemes_cons]
  cases hread : Lexeme.read (c :: cs) with
  | error failure => simp
  | ok r =>
    obtain ⟨x, rest⟩ := r
    dsimp only
    cases hrest : (lexemes rest).2 with
    | none => rfl
    | some failure => simp [Except.map, Nat.add_assoc]

/-- Markup, and the tokens behind it. -/
theorem bind_scanMarkup {source before cs rest : List Char} {opener : Opener} {n : Nat} (hsource : source = before ++ cs)
    (ho : opener? cs = some (opener, rest))
    (ih : ∀ before' cs', source = before' ++ cs' → cs'.length < cs.length →
      scanTokens source n (byteLength before') = some (tokenizeAt (byteLength before') cs')) (texts : List Token) :
    (scanMarkup source opener (byteLength before)).bind (scannedOn texts fun pos => scanTokens source n pos) =
      some ((tokenizeAt (byteLength before) cs).map fun ts => texts ++ ts) := by
  cases cs with
  | nil => cases ho
  | cons c cs =>
    rw [scanMarkup_eq hsource ho, Option.bind_some, tokenizeAt_cons, readAt]
    cases hread : Lexeme.read (c :: cs) with
    | error failure => rfl
    | ok r =>
      obtain ⟨x, after⟩ := r
      have hrest := ih (before ++ x.chars) after (by rw [hsource, Lexeme.append_of_read hread, List.append_assoc])
        (Lexeme.length_lt_of_read hread)
      rw [Text.byteLength_append] at hrest
      dsimp only
      rw [scannedOn, hrest]
      cases tokenizeAt (byteLength before + byteLength x.chars) after <;> rfl

/-- Behind `before` the scanner reads the tokens of the text there. -/
theorem scanTokens_eq {source : List Char} (n : Nat) (before cs : List Char) (hsource : source = before ++ cs)
    (hn : cs.length < n) :
    scanTokens source n (byteLength before) = some (tokenizeAt (byteLength before) cs) := by
  induction n generalizing before cs with
  | zero => cases hn
  | succ n ih =>
    have hdrop : (utf8 source).drop (byteLength before) = utf8 cs := hsource ▸ Text.drop_utf8_append before cs
    rw [scanTokens, hdrop]
    cases cs with
    | nil => rw [tokenizeAt_nil]; rfl
    | cons c cs =>
      have hlength : (c :: cs).length ≤ n := Nat.le_of_lt_succ hn
      obtain ⟨b, bs, hbs, -⟩ := exists_first_byte c cs
      have hempty : (utf8 (c :: cs)).isEmpty = false := by rw [hbs]; rfl
      have happend := append_textRun (c :: cs)
      dsimp only
      rw [hempty, if_neg Bool.false_ne_true, seek_utf8 detects_openerAt, seekText_openerAt, openerAt_eq]
      cases ho : opener? (c :: cs) with
      | some r =>
        -- markup begins right here
        have hrun : textRun (c :: cs) = ([], c :: cs) := by rw [textRun, ho]; rfl
        have hmarkup := bind_scanMarkup hsource ho (fun before' cs' h hlt => ih before' cs' h (by omega)) []
        rw [hrun, ho, Option.map_some, Option.map_some, Option.map_some]
        dsimp only
        rw [if_pos Text.byteLength_nil, Option.bind_some, Text.byteLength_nil, Nat.add_zero, hmarkup]
        cases tokenizeAt (byteLength before) (c :: cs) <;> rfl
      | none =>
        have hread : Lexeme.read (c :: cs) = .ok (.text (textRun (c :: cs)).1, (textRun (c :: cs)).2) := by
          rw [Lexeme.read, ho]
        have hne : (textRun (c :: cs)).1 ≠ [] := Lexeme.chars_ne_nil hread
        have hshort := Lexeme.length_lt_of_read hread
        have hrest := textRun_rest (c :: cs)
        rw [tokenizeAt_cons, hread]
        generalize (textRun (c :: cs)).1 = run at *
        generalize (textRun (c :: cs)).2 = rest at *
        have htext : text? source ⟨byteLength before, byteLength before + byteLength run⟩ =
            some ((Lexeme.text run).token (byteLength before)) := by
          rw [text?, token?, slice?_behind hsource happend.symm]
          rfl
        rcases hrest with rfl | hrest
        · -- the text runs to the end of the template
          have hstop : byteLength source = byteLength before + byteLength run := by
            rw [hsource, ← happend, List.append_nil, Text.byteLength_append]
          have hend := ih source [] (List.append_nil _).symm (Nat.lt_of_lt_of_le (Nat.succ_pos _) hlength)
          have ho' : opener? [] = none := rfl
          rw [ho', Option.map_none, Option.map_none, Option.map_none]
          dsimp only
          rw [hend, hstop, htext, tokenizeAt_nil, tokenizeAt_nil]
          rfl
        · -- markup follows the text
          obtain ⟨⟨opener, after⟩, ho'⟩ := Option.isSome_iff_exists.mp hrest
          have hsource' : source = before ++ run ++ rest := by rw [hsource, ← happend, List.append_assoc]
          have hmarkup := bind_scanMarkup hsource' ho' (fun before' cs' h hlt => ih before' cs' h (by omega))
            [(Lexeme.text run).token (byteLength before)]
          rw [Text.byteLength_append] at hmarkup
          rw [ho', Option.map_some, Option.map_some, Option.map_some]
          dsimp only
          rw [if_neg (fun h => hne (Text.byteLength_eq_zero.mp h)), htext, Option.map_some, Option.bind_some, hmarkup]
          rfl

/-- The bytes of a template are scanned as its characters are, and every cut succeeds. -/
theorem tokenize?_eq (source : String) : tokenize? source = some (tokenize source) := by
  have hlength := Text.length_le_byteLength source.toList
  exact scanTokens_eq _ [] source.toList rfl (by omega)

end Bytewise

/-- Scanning a template byte by byte cuts texts at boundaries of characters only and reads the tokens that reading
characters does, and these tile the template. -/
theorem tokenize?_tiles (source : String) :
    Bytewise.tokenize? source = some (tokenize source) ∧ ∀ ts, tokenize source = .ok ts → Tiles source ts :=
  ⟨Bytewise.tokenize?_eq source, fun _ h => tiles_of_tokenize h⟩

/-- Here the backslash skips the first byte of three, and the string and the interpolation go on behind them. -/
theorem exists_tiles_backslash :
    ∃ ts, tokenize "$\x7b'\\€\x7d'\x7d€" = .ok ts ∧ ts.length = 2 ∧ Tiles "$\x7b'\\€\x7d'\x7d€" ts := by
  obtain ⟨-, htiles⟩ := tokenize?_tiles "$\x7b'\\€\x7d'\x7d€"
  let string : Fragment := ⟨"'\\€\x7d'", ⟨2, 9⟩⟩
  let first : Token :=
    ⟨.interpolation, ⟨0, 10⟩, "$\x7b'\\€\x7d'\x7d", none, some ⟨string.text, ⟨2, 9⟩, [string]⟩, false, false⟩
  let second : Token := ⟨.text, ⟨10, 13⟩, "€", none, none, false, false⟩
  have hscan : scan "$\x7b'\\€\x7d'\x7d€" = ([first, second], none) := by
    decide +kernel
  have htokens : tokenize "$\x7b'\\€\x7d'\x7d€" = .ok [first, second] := by
    rw [tokenize, hscan]
  exact ⟨[first, second], htokens, rfl, htiles _ htokens⟩

end TemplateSyntax.Markup
