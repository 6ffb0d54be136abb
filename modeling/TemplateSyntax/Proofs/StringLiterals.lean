import TemplateSyntax.Proofs.Expr.Printing
import TemplateSyntax.Proofs.Markup.Forms
import TemplateSyntax.Proofs.Tree.Acceptance

/-!
# String literals carry any text

A text is written as a string literal by putting a backslash in front of each backslash and of each quote of the kind
that encloses it. Two readers meet the literal on its way into the tree: the scanner, which must not end the tag inside
of it, and the reader of strings, which must find the text again. Whatever the text holds, both do (`parse_quoted`).
-/

namespace TemplateSyntax

open Text (byteLength isBlank isTagBlank)

theorem Markup.isQuote_iff {c : Char} : Markup.isQuote c = true ↔ c = '"' ∨ c = '\'' := by
  rw [Markup.isQuote, Bool.or_eq_true, beq_iff_eq, beq_iff_eq]

/-! ### Writing a literal -/

namespace Expr

/-- The text as it is written between two of the quotes. -/
def escape (quote : Char) (text : List Char) : List Char :=
  text.flatMap fun c => if c = '\\' ∨ c = quote then ['\\', c] else [c]

/-- The string literal of the text. -/
def quoted (quote : Char) (text : List Char) : List Char :=
  quote :: (escape quote text ++ [quote])

variable {quote : Char} {text : List Char}

theorem escape_cons_of_escaped {c : Char} (hc : c = '\\' ∨ c = quote) (text : List Char) :
    escape quote (c :: text) = '\\' :: c :: escape quote text := by
  rw [escape, List.flatMap_cons, if_pos hc]
  rfl

theorem escape_cons_of_plain {c : Char} (hc : ¬(c = '\\' ∨ c = quote)) (text : List Char) :
    escape quote (c :: text) = c :: escape quote text := by
  rw [escape, List.flatMap_cons, if_neg hc]
  rfl

example : String.ofList (escape '"' "a\"\\'".toList) = "a\\\"\\\\'" := by decide

theorem ne_backslash_of_isQuote (hquote : Markup.isQuote quote = true) : '\\' ≠ quote := by
  rintro rfl
  revert hquote
  decide

/-- A backslash gives back the character that it was put in front of. -/
theorem unescape_of_escaped (hquote : Markup.isQuote quote = true) {c : Char} (hc : c = '\\' ∨ c = quote) :
    unescape c = [c] := by
  rcases hc with rfl | rfl
  · rfl
  · rcases Markup.isQuote_iff.mp hquote with rfl | rfl <;> rfl

/-! ### Reading the literal back -/

/-- The reader of strings finds the text and the closing quote. -/
theorem stringBody_quoted (hquote : Markup.isQuote quote = true) (text rest : List Char) :
    stringBody quote (escape quote text ++ quote :: rest) = ⟨escape quote text ++ [quote], text, some rest⟩ := by
  induction text with
  | nil =>
    have hclose : stringBody quote (quote :: rest) = ⟨[quote], [], some rest⟩ := by
      rw [stringBody.eq_def]
      simp
    exact hclose
  | cons c text ih =>
    by_cases hc : c = '\\' ∨ c = quote
    · rw [escape_cons_of_escaped hc, List.cons_append, List.cons_append,
        stringBody_escape (ne_backslash_of_isQuote hquote), ih, unescape_of_escaped hquote hc]
      rfl
    · have hplain := not_or.mp hc
      rw [escape_cons_of_plain hc, List.cons_append, stringBody_plain hplain.2 hplain.1, ih]
      rfl

/-- The token of the literal is all of it. -/
theorem readToken_quoted (hquote : Markup.isQuote quote = true) (text : List Char) :
    readToken false quote (escape quote text ++ [quote]) =
      ⟨quoted quote text, [], .ok (.string (String.ofList text))⟩ := by
  have hquotes := Markup.isQuote_iff.mp hquote
  have hnumber : startsNumber false quote (escape quote text ++ [quote]) = false := by
    rcases hquotes with rfl | rfl <;> rfl
  rw [readToken, hnumber, if_neg Bool.false_ne_true, if_pos hquotes, readString, stringBody_quoted hquote]
  rfl

/-- The literal alone is one expression, which has the text for its value and its own writing for its raw text. -/
theorem parseAt_quoted (hquote : Markup.isQuote quote = true) (text : List Char) (base : Nat) :
    parseAt (String.ofList (quoted quote text)) base = .ok (some (.literal (.string (String.ofList text))
      (String.ofList (quoted quote text)) ⟨base, base + byteLength (quoted quote text)⟩)) := by
  have hblank : isBlank quote = false := by
    rcases Markup.isQuote_iff.mp hquote with rfl | rfl <;> decide
  have htokens := Cursor.tokens_of_readToken hblank (readToken_quoted hquote text) base
  rw [Cursor.tokens_nil] at htokens
  have hcursor : Cursor.ofSource (String.ofList (quoted quote text)) base = ⟨quoted quote text, base, false⟩ := by
    rw [Cursor.ofSource, String.toList_ofList]
  rw [← quoted, ← hcursor] at htokens
  exact parseAt_eq_ok_iff.mpr
    ⟨_, _, [_], htokens, .expression (derives_of_primary (.string rfl) stops_nil) .nil, rfl⟩

end Expr

open TemplateSyntax.Expr (escape quoted)

/-! ### Scanning past the literal -/

namespace Markup

variable {e : Enclosure} {quote : Char} {rest : List Char}

/-- Inside the literal no fragment ends, and behind it one does. -/
theorem fragment_escape (hquote : isQuote quote = true) (hstops : Stops e rest) (text : List Char) :
    fragment e (.quoted quote 0) (escape quote text ++ quote :: rest) = .ended (escape quote text ++ [quote]) rest := by
  have hopen (c : Char) : (Nesting.quoted quote 0).step c =
      if c = '\\' then some (.escaped quote 0) else if c = quote then some (.plain 0) else some (.quoted quote 0) := rfl
  induction text with
  | nil =>
    obtain ⟨c, ds, rfl, hstop⟩ := hstops
    have hend : fragment e (.plain 0) (c :: ds) = .ended [] (c :: ds) :=
      fragment_cons_eq_ended_iff.mpr (.inl ⟨rfl, rfl, rfl, hstop⟩)
    refine fragment_cons_eq_ended_iff.mpr (.inr ⟨[], .plain 0, rfl, ?_, ?_, hend⟩)
    · rintro ⟨hplain, -⟩
      cases hplain
    · rw [hopen, if_neg (Expr.ne_backslash_of_isQuote hquote).symm, if_pos rfl]
  | cons c text ih =>
    by_cases hc : c = '\\' ∨ c = quote
    · rw [Expr.escape_cons_of_escaped hc]
      refine fragment_cons_eq_ended_iff.mpr (.inr ⟨_, .escaped quote 0, rfl, ?_, rfl, ?_⟩)
      · rintro ⟨hplain, -⟩
        cases hplain
      refine fragment_cons_eq_ended_iff.mpr (.inr ⟨_, .quoted quote 0, rfl, ?_, rfl, ih⟩)
      rintro ⟨hplain, -⟩
      cases hplain
    · rw [Expr.escape_cons_of_plain hc]
      refine fragment_cons_eq_ended_iff.mpr (.inr ⟨_, .quoted quote 0, rfl, ?_, ?_, ih⟩)
      · rintro ⟨hplain, -⟩
        cases hplain
      · rw [hopen, if_neg (not_or.mp hc).1, if_neg (not_or.mp hc).2]

theorem stopsAt_of_isQuote (hquote : isQuote quote = true) (cs : List Char) : e.stopsAt quote cs = false := by
  rcases isQuote_iff.mp hquote with rfl | rfl <;> cases e <;> rfl

theorem fragment_quoted (hquote : isQuote quote = true) (hstops : Stops e rest) (text : List Char) :
    fragment e (.plain 0) (quoted quote text ++ rest) = .ended (quoted quote text) rest := by
  refine fragment_cons_eq_ended_iff.mpr (.inr ⟨_, .quoted quote 0, rfl, ?_, ?_, ?_⟩)
  · rintro ⟨-, hstop⟩
    rw [stopsAt_of_isQuote hquote] at hstop
    cases hstop
  · rw [Nesting.step, if_pos hquote]
  · have hescape := fragment_escape hquote hstops text
    simpa using hescape

/-- The parameters of a tag can be the literal alone. -/
theorem isRegion_quoted (hquote : isQuote quote = true) {blanks : List Char}
    (hblanks : ∀ c ∈ blanks, isTagBlank c = true) {m : Marker} (hm : m ∈ e.markers) (text : List Char) :
    IsRegion e (blanks ++ (quoted quote text ++ m.text)) ⟨[(blanks, quoted quote text)], [], m⟩ [] := by
  have hmarker : IsRegion e m.text ⟨[], [], m⟩ [] := by
    have hends := @IsRegion.marker e [] [] m (List.forall_mem_nil _) hm
    rwa [List.nil_append, List.append_nil] at hends
  have hstops : Stops e m.text := List.append_nil m.text ▸ stops_marker hm []
  exact .fragment hblanks (List.cons_ne_nil _ _) (fragment_quoted hquote hstops text) hmarker

theorem tokenize_of_opensRegion {opening ds : List Char} {build : Region → Lexeme} {r : Region}
    (hopens : OpensRegion (opening ++ ds) e opening build ds) (hr : IsRegion e ds r []) :
    tokenize (String.ofList (opening ++ ds)) = .ok [(build r).token 0] := by
  have hread : Lexeme.read (opening ++ ds) = .ok (build r, []) :=
    hopens.read_eq.trans (readRegion_eq_ok_iff.mpr ⟨r, rfl, hr.region_eq⟩)
  have hne : opening ++ ds ≠ [] := by
    rw [append_of_region hr.region_eq, List.append_nil]
    exact ((decisive_chars r).append opening).1
  refine tokenize_eq_ok_iff.mpr ⟨[build r], ?_, rfl⟩
  rw [String.toList_ofList]
  exact .cons hne hread (.nil [])

end Markup

/-! ### Templates of one tag -/

namespace Template

/-- The template is one node without children, and nothing is wrong with it. -/
def IsOneNode (source : String) (head : Head) : Prop :=
  ∀ basePath, ∃ tokens, parse source basePath =
    .ok ⟨⟨source.utf8ByteSize, [⟨head, ⟨0, source.utf8ByteSize⟩, none, none⟩], []⟩, tokens, basePath⟩

/-- A tag that wraps nothing makes its node alone, whether that is finished at once or waits for a closing tag. -/
theorem isOneNode_of_isBegunBy {source : String} {t : Markup.Token} {head : Head}
    (htokens : Markup.tokenize source = .ok [t]) (hbegun : head.IsBegunBy t) (hwraps : head.wraps t.selfClosing = false)
    (hspan : t.span = ⟨0, source.utf8ByteSize⟩) : IsOneNode source head := by
  obtain ⟨params, htag, hhead⟩ := hbegun
  let n : Node := ⟨head, t.span, none, none⟩
  let b := Builder.new source.utf8ByteSize
  have hn : Node.ofTag head.kind t params = .ok n := by
    rw [Node.ofTag, hhead, Except.map, hwraps]
    rfl
  have hpush : b.push t = (none, b.place t.selfClosing n) := by
    have haccept : b.settle.accept head.kind t params = .ok (b.place t.selfClosing n) :=
      Builder.accept_of_ofTag htag rfl hn
    exact Builder.push_of_accept htag haccept
  have hfinish : (b.place t.selfClosing n).finish = ⟨source.utf8ByteSize, [n], []⟩ := by
    unfold Builder.place
    rw [show n.body.isSome = false from rfl, Bool.false_and, if_neg Bool.false_ne_true]
    split
    · cases t.selfClosing <;> rfl
    · rfl
  have hrun : b.pushAll [t] = (none, b.place t.selfClosing n) := by
    rw [Builder.pushAll, hpush]
    rfl
  have hnode : n = ⟨head, ⟨0, source.utf8ByteSize⟩, none, none⟩ := by
    rw [← hspan]
  intro basePath
  refine ⟨[t], ?_⟩
  rw [parse, htokens]
  dsimp only [Program.ofTokens]
  rw [show Builder.new source.utf8ByteSize = b from rfl, hrun]
  dsimp only
  rw [hfinish, hnode]

/-- The literal of the text, standing at the offset. -/
def literalAt (quote : Char) (text : String) (offset : Nat) : Expr :=
  let raw := String.ofList (quoted quote text.toList)
  .literal (.string text) raw ⟨offset, offset + raw.utf8ByteSize⟩

/-- Of a region that is the literal alone, the parameters are the literal. -/
theorem readParams_quoted {quote : Char} (hquote : Markup.isQuote quote = true) (text : String) {kind : Kind}
    (hkind : kind ≠ .text ∧ kind ≠ .comment) {blanks : List Char} {m : Markup.Marker} {start : Nat} {t : Markup.Token}
    (ht : t.params = (Markup.Region.mk [(blanks, quoted quote text.toList)] [] m).params? start) :
    kind.readParams t = .ok (some (literalAt quote text (start + byteLength blanks))) := by
  have hread : kind.readParams t =
      Expr.parseAt (String.ofList (quoted quote text.toList ++ [])) (start + byteLength blanks) := by
    unfold Kind.readParams
    rw [ht]
    split
    · exact absurd rfl hkind.1
    · exact absurd rfl hkind.2
    · next hnone => cases hnone
    · next hp =>
      cases hp
      rfl
  rw [hread, List.append_nil, Expr.parseAt_quoted hquote, literalAt, ← Text.byteLength_toList, String.toList_ofList,
    String.ofList_toList]

theorem isOneNode_of_opensRegion {e : Markup.Enclosure} {opening ds : List Char} {build : Markup.Region → Markup.Lexeme}
    {r : Markup.Region} {head : Head} {source : String}
    (hopens : Markup.OpensRegion (opening ++ ds) e opening build ds) (hr : Markup.IsRegion e ds r [])
    (hbegun : head.IsBegunBy ((build r).token 0)) (hwraps : head.wraps ((build r).token 0).selfClosing = false)
    (hsource : source.toList = opening ++ ds) : IsOneNode source head := by
  have htokens := Markup.tokenize_of_opensRegion hopens hr
  rw [← hsource, String.ofList_toList] at htokens
  have hchars : (build r).chars = source.toList := by
    rw [hopens.chars_eq, hsource, Markup.append_of_region hr.region_eq, List.append_nil]
  refine isOneNode_of_isBegunBy htokens hbegun hwraps ?_
  show Span.mk 0 (0 + byteLength (build r).chars) = _
  rw [hchars, Text.byteLength_toList, Nat.zero_add]

private theorem opensRegion_include (ds : List Char) :
    Markup.OpensRegion (['<', '#'] ++ "include".toList ++ (' ' :: ds)) .tag (['<', '#'] ++ "include".toList)
      (.tag ⟨false, false⟩ "include".toList) (' ' :: ds) :=
  @Markup.OpensRegion.tag _ _ _ ⟨false, false⟩ rfl rfl

private theorem opensRegion_call (ds : List Char) :
    Markup.OpensRegion (['<', '@'] ++ "m".toList ++ (' ' :: ds)) .tag (['<', '@'] ++ "m".toList)
      (.tag ⟨true, false⟩ "m".toList) (' ' :: ds) :=
  @Markup.OpensRegion.tag _ _ _ ⟨true, false⟩ rfl rfl

/-- A text goes unchanged through an interpolation, a directive and a macro call. -/
theorem parse_quoted (text : String) {quote : Char} (hquote : quote = '"' ∨ quote = '\'') :
    IsOneNode ("$\x7b" ++ String.ofList (quoted quote text.toList) ++ "\x7d")
        (.interpolation (literalAt quote text 2)) ∧
      IsOneNode ("<#include " ++ String.ofList (quoted quote text.toList) ++ ">")
        (.single .include (some (literalAt quote text 10))) ∧
      IsOneNode ("<@m " ++ String.ofList (quoted quote text.toList) ++ "/>")
        (.macroCall "m" (some (literalAt quote text 4))) := by
  have hq := Markup.isQuote_iff.mpr hquote
  have hblank : ∀ c ∈ [' '], isTagBlank c = true := List.forall_mem_singleton.mpr rfl
  have hsource (front back : String) : (front ++ String.ofList (quoted quote text.toList) ++ back).toList =
      front.toList ++ (quoted quote text.toList ++ back.toList) := by
    rw [String.toList_append, String.toList_append, String.toList_ofList, List.append_assoc]
  refine ⟨?_, ?_, ?_⟩
  · have hm : .brace ∈ Markup.Enclosure.interpolation.markers := by decide
    have hr := Markup.isRegion_quoted hq (List.forall_mem_nil _) hm text.toList
    exact isOneNode_of_opensRegion (.interpolation rfl) hr
      ⟨_, ⟨rfl, rfl, readParams_quoted hq text ⟨by nofun, by nofun⟩ rfl, trivial⟩, rfl⟩ rfl (hsource _ _)
  · have hm : .close ∈ Markup.Enclosure.tag.markers := by decide
    have hr := Markup.isRegion_quoted hq hblank hm text.toList
    exact isOneNode_of_opensRegion (opensRegion_include _) hr
      ⟨_, ⟨rfl, rfl, readParams_quoted hq text ⟨by nofun, by nofun⟩ rfl, trivial⟩, rfl⟩ rfl (hsource _ _)
  · have hm : .selfClose ∈ Markup.Enclosure.tag.markers := by decide
    have hr := Markup.isRegion_quoted hq hblank hm text.toList
    exact isOneNode_of_opensRegion (opensRegion_call _) hr
      ⟨_, ⟨rfl, rfl, readParams_quoted hq text ⟨by nofun, by nofun⟩ rfl, trivial⟩, rfl⟩ rfl (hsource _ _)

/-- The brace and the slash in the string end nothing. -/
theorem parse_quoted_markers :
    ∃ tokens, parse "$\x7b\"a\\\"\x7d/>\"\x7d" none = .ok ⟨⟨11, [⟨.interpolation (.literal (.string "a\"\x7d/>")
      "\"a\\\"\x7d/>\"" ⟨2, 10⟩), ⟨0, 11⟩, none, none⟩], []⟩, tokens, none⟩ := by
  have hraw : String.ofList (quoted '"' "a\"\x7d/>".toList) = "\"a\\\"\x7d/>\"" := by decide
  obtain ⟨tokens, hparse⟩ := (parse_quoted "a\"\x7d/>" (.inl rfl)).1 none
  rw [literalAt, hraw] at hparse
  exact ⟨tokens, hparse⟩

end Template

end TemplateSyntax
