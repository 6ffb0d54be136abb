import Mathlib.Data.List.Chain
import TemplateSyntax.Proofs.Markup.Bytewise.Scanner
import TemplateSyntax.Proofs.Markup.Resuming

/-!
# Text and markup are separated

Plain text is what no opening symbol starts in, at any of its bytes, so a symbol ends it at once and two texts never lie
side by side. Every other token begins with the first of the opening symbols that stands there, and that symbol says what
the token is. A comment runs to the nearest `-->` behind its symbol (`separates_of_tokenize`).
-/

namespace TemplateSyntax.Markup

open Text (byteLength utf8 latin isAscii)

/-! ### Opening symbols at a byte -/

/-- The first of the opening symbols that starts at the byte offset of the text. -/
def symbolAt? (cs : List Char) (offset : Nat) : Option Opener :=
  Opener.all.find? fun o => o.text.isPrefixOf (latin ((utf8 cs).drop offset))

/-- The kind of the tokens that begin with the symbol. -/
def Opener.kind : Opener → TokenKind
  | .comment => .comment
  | .tag opener => if opener.isMacro then .macroTag else .directive
  | .interpolation => .interpolation

/-- The symbol begins closing tags. -/
def Opener.closing : Opener → Bool
  | .tag opener => opener.closing
  | _ => false

theorem isPrefixOf?_eq_none_iff {l cs : List Char} : l.isPrefixOf? cs = none ↔ ¬ l <+: cs := by
  constructor
  · rintro hnone ⟨rest, rfl⟩
    rw [Text.isPrefixOf?_append_self] at hnone
    cases hnone
  · intro hnot
    cases h : l.isPrefixOf? cs with
    | none => rfl
    | some rest => exact absurd ⟨rest, (Text.isPrefixOf?_eq_some h).symm⟩ hnot

theorem map_fst_firstMatch {α : Type} (text : α → List Char) (candidates : List α) (cs : List Char) :
    (Text.firstMatch text candidates cs).map Prod.fst = candidates.find? fun a => (text a).isPrefixOf cs := by
  induction candidates with
  | nil => rfl
  | cons a candidates ih =>
    rw [Text.firstMatch, List.findSome?_cons, List.find?_cons]
    cases hstarts : (text a).isPrefixOf? cs with
    | none =>
      have hnot : (text a).isPrefixOf cs = false := by
        rw [← Bool.not_eq_true, List.isPrefixOf_iff_prefix]
        exact isPrefixOf?_eq_none_iff.mp hstarts
      rw [hnot]
      exact ih
    | some rest =>
      have hbegins : (text a).isPrefixOf cs = true := by
        rw [List.isPrefixOf_iff_prefix]
        exact ⟨rest, (Text.isPrefixOf?_eq_some hstarts).symm⟩
      rw [hbegins]
      rfl

theorem symbolAt?_eq (cs : List Char) (offset : Nat) :
    symbolAt? cs offset = Bytewise.openerAt (latin ((utf8 cs).drop offset)) := by
  rw [Bytewise.openerAt_eq, opener?, map_fst_firstMatch, symbolAt?]

/-- Between two characters the bytes start with a symbol if the characters do. -/
theorem symbolAt?_append (before cs : List Char) :
    symbolAt? (before ++ cs) (byteLength before) = (opener? cs).map Prod.fst := by
  rw [symbolAt?_eq, Text.drop_utf8_append, Bytewise.detects_openerAt.latin, Bytewise.openerAt_eq]

/-- No symbol starts inside a character. -/
theorem symbolAt?_inside {c : Char} (before after : List Char) {n : Nat} (hpos : 0 < n) (hn : n < c.utf8Size) :
    symbolAt? (before ++ c :: after) (byteLength before + n) = none := by
  have hwide : isAscii c = false := by
    rw [← Bool.not_eq_true]
    intro hascii
    rw [Text.utf8Size_of_isAscii hascii] at hn
    omega
  have hlength := String.length_utf8EncodeChar c
  obtain ⟨b, bs, hdrop⟩ : ∃ b bs, (String.utf8EncodeChar c).drop n = b :: bs :=
    List.exists_cons_of_ne_nil (by simp [hlength, hn])
  have hb : b ∈ String.utf8EncodeChar c := List.mem_of_mem_drop (hdrop ▸ List.mem_cons_self ..)
  have hbytes : (utf8 (before ++ c :: after)).drop (byteLength before + n) = b :: (bs ++ utf8 after) := by
    rw [← List.drop_drop, Text.drop_utf8_append, Text.utf8_cons, List.drop_append_of_le_length (by omega), hdrop,
      List.cons_append]
  rw [symbolAt?_eq, hbytes]
  exact Bytewise.detects_openerAt.wide _ _ (Text.isAscii_of_mem_utf8EncodeChar hwide hb)

/-- A byte of a text lies at the start of one of its characters or inside it. -/
theorem exists_char_of_lt {cs : List Char} {n : Nat} (hn : n < byteLength cs) :
    ∃ pre c post, cs = pre ++ c :: post ∧ byteLength pre ≤ n ∧ n < byteLength pre + c.utf8Size := by
  induction cs generalizing n with
  | nil => exact absurd hn (Nat.not_lt_zero n)
  | cons c cs ih =>
    by_cases hc : n < c.utf8Size
    · exact ⟨[], c, cs, rfl, Nat.zero_le n, by simpa using hc⟩
    · rw [Text.byteLength_cons] at hn
      obtain ⟨pre, d, post, rfl, hle, hlt⟩ := ih (show n - c.utf8Size < byteLength cs by omega)
      refine ⟨c :: pre, d, post, rfl, ?_, ?_⟩
      · rw [Text.byteLength_cons]
        omega
      · rw [Text.byteLength_cons]
        omega

/-! ### Texts and comments -/

/-- At no character of a run of text an opening symbol starts. -/
theorem opener?_of_textRun {body after pre post : List Char} {c : Char} (h : textRun (body ++ after) = (body, after))
    (hbody : body = pre ++ c :: post) : opener? (c :: post ++ after) = none := by
  induction body generalizing pre with
  | nil => exact absurd hbody (by simp)
  | cons d body ih =>
    rw [List.cons_append, textRun] at h
    split at h
    · cases h
    next hopener =>
    obtain ⟨hrun, hrest⟩ := Prod.mk.inj h
    have htail : textRun (body ++ after) = (body, after) := Prod.ext (List.cons.inj hrun).2 hrest
    cases pre with
    | nil =>
      obtain ⟨rfl, rfl⟩ := List.cons.inj hbody
      exact Option.not_isSome_iff_eq_none.mp hopener
    | cons e pre => exact ih htail (List.cons.inj hbody).2

/-- The body of a comment ends at the first place where a closing symbol stands. -/
theorem length_le_of_commentBody? {cs body rest pre post : List Char} (h : commentBody? cs = some (body, rest))
    (hcs : cs = pre ++ (commentClose ++ post)) : body.length ≤ pre.length := by
  induction cs generalizing body pre with
  | nil => cases h
  | cons c cs ih =>
    rw [commentBody?] at h
    split at h
    · cases h
      exact Nat.zero_le _
    next hopen =>
    obtain ⟨⟨body', rest'⟩, hbody, heq⟩ := Option.map_eq_some_iff.mp h
    cases heq
    cases pre with
    | nil =>
      rw [hcs, List.nil_append, Text.isPrefixOf?_append_self] at hopen
      cases hopen
    | cons d pre => exact Nat.succ_le_succ (ih hbody (List.cons.inj hcs).2)

/-- Behind the body of a comment the closing symbol stands, and nowhere before that. -/
theorem eq_nil_of_commentBody? {ds body rest pre post : List Char} (h : commentBody? ds = some (body, rest))
    (hclose : body ++ commentClose = pre ++ commentClose ++ post) : post = [] := by
  rw [append_of_commentBody? h, List.append_assoc, commentBody?_append_iff] at h
  have hle := length_le_of_commentBody? h (by rw [hclose, List.append_assoc])
  have hlength := congrArg List.length hclose
  simp only [List.length_append] at hlength
  exact List.eq_nil_of_length_eq_zero (by omega)

theorem commentBody?_of_raw {t : Token} {body : List Char} (hkind : t.kind = .comment)
    (hraw : t.raw = String.ofList (commentOpen ++ body ++ commentClose)) :
    t.commentBody? = some (String.ofList body) := by
  have hsuffix : commentClose.isSuffixOf? (body ++ commentClose) = some body := by
    rw [List.isSuffixOf?, List.reverse_append, Text.isPrefixOf?_append_self, Option.map_some, List.reverse_reverse]
  rw [Token.commentBody?, hkind]
  dsimp only
  rw [hraw, String.toList_ofList, List.append_assoc, Text.isPrefixOf?_append_self, Option.bind_some, hsuffix]
  rfl

/-! ### Tokens -/

/-- How the tokens divide the template into text and markup. -/
structure Separates (source : String) (ts : List Token) : Prop where
  /-- No opening symbol starts at a byte of a text. -/
  text : ∀ t ∈ ts, t.kind = .text → ∀ offset, t.span.start ≤ offset → offset < t.span.stop →
    symbolAt? source.toList offset = none
  /-- There are no two texts side by side. -/
  alternates : ts.IsChain fun t u => t.kind = .text → u.kind ≠ .text
  /-- Markup begins with the first symbol that stands there, and is of the kind of that symbol. -/
  markup : ∀ t ∈ ts, t.kind ≠ .text → ∃ o, symbolAt? source.toList t.span.start = some o ∧ o.text <+: t.raw.toList ∧
    t.kind = o.kind ∧ t.closing = o.closing
  /-- A comment ends at the first `-->` behind its symbol, and its body is what stands between the two. -/
  comment : ∀ t ∈ ts, t.kind = .comment → ∃ body, t.raw = String.ofList (commentOpen ++ body ++ commentClose) ∧
    (∀ pre post, body ++ commentClose = pre ++ commentClose ++ post → post = []) ∧
    t.commentBody? = some (String.ofList body)

theorem exists_append_of_mem_tokensAt {start : Nat} {xs : List Lexeme} {t : Token} (h : t ∈ tokensAt start xs) :
    ∃ ys x zs, xs = ys ++ x :: zs ∧ t = x.token (start + byteLength (ys.flatMap Lexeme.chars)) := by
  induction xs generalizing start with
  | nil => cases h
  | cons x xs ih =>
    rcases List.mem_cons.mp h with rfl | h
    · exact ⟨[], x, xs, rfl, rfl⟩
    · obtain ⟨ys, y, zs, rfl, rfl⟩ := ih h
      refine ⟨x :: ys, y, zs, rfl, ?_⟩
      rw [List.flatMap_cons, Text.byteLength_append, Nat.add_assoc]

/-- Every token is that of a lexeme, which is read where the token stands. -/
theorem exists_read_of_mem {source : String} {ts : List Token} (h : tokenize source = .ok ts) {t : Token}
    (ht : t ∈ ts) : ∃ before x after, source.toList = before ++ (x.chars ++ after) ∧
      Lexeme.read (x.chars ++ after) = .ok (x, after) ∧ t = x.token (byteLength before) := by
  obtain ⟨xs, hrun, rfl⟩ := tokenize_eq_ok_iff.mp h
  obtain ⟨ys, x, zs, rfl, rfl⟩ := exists_append_of_mem_tokensAt ht
  obtain ⟨mid, hys, hrun⟩ := run_append_iff.mp hrun
  cases hrun with
  | @cons _ after _ _ _ hne hread hzs =>
    have happend := Lexeme.append_of_read hread
    subst happend
    exact ⟨_, x, after, hys.append_eq, hread, by rw [Nat.zero_add]⟩

theorem textRun_of_read {body after : List Char} (h : Lexeme.read (body ++ after) = .ok (.text body, after)) :
    textRun (body ++ after) = (body, after) := by
  have hview := lexemeView (body ++ after)
  rw [h] at hview
  generalize hk : Except.ok (Lexeme.text body, after) = k at hview
  cases hview with
  | text ho hrun =>
    cases hk
    exact hrun
  | comment => cases hk
  | openComment => cases hk
  | region hopens =>
    obtain ⟨r, htext, -⟩ := readRegion_eq_ok_iff.mp hk.symm
    have hmarkup := hopens.isText_eq r
    rw [← htext] at hmarkup
    cases hmarkup

/-- In a text no symbol starts, neither at a character nor inside of one. -/
theorem symbolAt?_of_text {body before after : List Char} (h : Lexeme.read (body ++ after) = .ok (.text body, after))
    {offset : Nat} (hle : byteLength before ≤ offset) (hlt : offset < byteLength before + byteLength body) :
    symbolAt? (before ++ (body ++ after)) offset = none := by
  have hrun := textRun_of_read h
  obtain ⟨pre, c, post, rfl, hpre, hpost⟩ := exists_char_of_lt (show offset - byteLength before < byteLength body by omega)
  have hopener := opener?_of_textRun hrun rfl
  have hsplit : before ++ (pre ++ c :: post ++ after) = before ++ pre ++ c :: (post ++ after) := by simp
  rw [hsplit]
  rcases Nat.eq_or_lt_of_le hpre with heq | hinside
  · have hoffset : offset = byteLength (before ++ pre) := by
      rw [Text.byteLength_append]
      omega
    rw [hoffset, symbolAt?_append, ← List.cons_append, hopener]
    rfl
  · have hoffset : offset = byteLength (before ++ pre) + (offset - byteLength before - byteLength pre) := by
      rw [Text.byteLength_append]
      omega
    rw [hoffset]
    exact symbolAt?_inside _ _ (by omega) (by omega)

/-- A text ends at an opening symbol, which begins markup. -/
theorem Run.isChain {cs rest : List Char} {xs : List Lexeme} (h : Run cs xs rest) :
    xs.IsChain fun x y => x.isText = true → y.isText = false := by
  induction h with
  | nil => exact .nil
  | @cons cs mid rest x xs hne hread h ih =>
    cases h with
    | nil => exact .singleton x
    | cons hne' hread' _ =>
      refine .cons_cons (fun htext => ?_) ih
      have hopener := (Lexeme.endsText_of_read hread htext).resolve_left hne'
      rw [Lexeme.isText_of_read hread', hopener]
      rfl

theorem isChain_tokensAt {xs : List Lexeme} (h : xs.IsChain fun x y => x.isText = true → y.isText = false)
    (start : Nat) : (tokensAt start xs).IsChain fun t u => t.kind = .text → u.kind ≠ .text := by
  induction h generalizing start with
  | nil => exact .nil
  | singleton x => exact .singleton _
  | @cons_cons x y xs hxy _ ih =>
    refine .cons_cons (fun hx hy => ?_) (ih _)
    have htext : y.isText = true := y.kind_eq_text_iff.mp hy
    rw [hxy (x.kind_eq_text_iff.mp hx)] at htext
    cases htext

/-- The symbol that a lexeme begins with says what its token is. -/
theorem Lexeme.symbol_of_read {x : Lexeme} {cs after : List Char} (h : Lexeme.read cs = .ok (x, after))
    (hx : x.isText = false) : ∃ o rest, opener? cs = some (o, rest) ∧ o.text <+: x.chars ∧
      ∀ start, (x.token start).kind = o.kind ∧ (x.token start).closing = o.closing := by
  have hview := lexemeView cs
  generalize Lexeme.read cs = k at h hview
  cases hview with
  | text =>
    cases h
    cases hx
  | openComment => cases h
  | comment ho =>
    cases h
    exact ⟨_, _, ho, ⟨_, (List.append_assoc ..).symm⟩, fun _ => ⟨rfl, rfl⟩⟩
  | region hopens =>
    obtain ⟨r, rfl, -⟩ := readRegion_eq_ok_iff.mp h
    cases hopens with
    | tag ho => exact ⟨_, _, ho, ⟨_, (List.append_assoc ..).symm⟩, fun _ => ⟨rfl, rfl⟩⟩
    | interpolation ho => exact ⟨_, _, ho, ⟨_, rfl⟩, fun _ => ⟨rfl, rfl⟩⟩

theorem Lexeme.exists_of_kind_comment {x : Lexeme} (h : x.kind = .comment) : ∃ body, x = .comment body := by
  cases x with
  | comment body => exact ⟨body, rfl⟩
  | text => cases h
  | tag opener =>
    rw [Lexeme.kind] at h
    cases hm : opener.isMacro <;> simp [hm] at h
  | interpolation => cases h

theorem commentBody?_of_read {body after : List Char}
    (h : Lexeme.read ((Lexeme.comment body).chars ++ after) = .ok (.comment body, after)) :
    ∃ ds, commentBody? ds = some (body, after) := by
  have hview := lexemeView ((Lexeme.comment body).chars ++ after)
  rw [h] at hview
  generalize hk : Except.ok (Lexeme.comment body, after) = k at hview
  cases hview with
  | text => cases hk
  | openComment => cases hk
  | comment ho hbody =>
    cases hk
    exact ⟨_, hbody⟩
  | region hopens =>
    obtain ⟨r, hcomment, -⟩ := readRegion_eq_ok_iff.mp hk.symm
    cases hopens <;> cases hcomment

/-- The tokens of a template separate its text from its markup. -/
theorem separates_of_tokenize {source : String} {ts : List Token} (h : tokenize source = .ok ts) :
    Separates source ts where
  text t ht hkind offset hle hlt := by
    obtain ⟨before, x, after, hsource, hread, rfl⟩ := exists_read_of_mem h ht
    cases x with
    | text body =>
      rw [hsource]
      exact symbolAt?_of_text hread hle hlt
    | comment => cases hkind
    | tag opener name region =>
      exact absurd ((Lexeme.kind_eq_text_iff (.tag opener name region)).mp hkind) Bool.false_ne_true
    | interpolation => cases hkind
  alternates := by
    obtain ⟨xs, hrun, rfl⟩ := tokenize_eq_ok_iff.mp h
    exact isChain_tokensAt hrun.isChain 0
  markup t ht hkind := by
    obtain ⟨before, x, after, hsource, hread, rfl⟩ := exists_read_of_mem h ht
    have hx : x.isText = false := by
      rw [← Bool.not_eq_true]
      exact fun htext => hkind (x.kind_eq_text_iff.mpr htext)
    obtain ⟨o, rest, ho, hbegins, htoken⟩ := Lexeme.symbol_of_read hread hx
    refine ⟨o, ?_, ?_, htoken _⟩
    · rw [hsource]
      exact (symbolAt?_append before _).trans (by rw [ho]; rfl)
    · rwa [show (x.token _).raw = String.ofList x.chars from rfl, String.toList_ofList]
  comment t ht hkind := by
    obtain ⟨before, x, after, hsource, hread, rfl⟩ := exists_read_of_mem h ht
    obtain ⟨body, rfl⟩ := Lexeme.exists_of_kind_comment hkind
    obtain ⟨ds, hbody⟩ := commentBody?_of_read hread
    exact ⟨body, rfl, fun pre post => eq_nil_of_commentBody? hbody, commentBody?_of_raw rfl rfl⟩

/-- The symbol in the body of the comment starts no token. -/
theorem separates_comment_with_symbol :
    ∃ ts, tokenize "é<#--<#-->$\x7ba\x7d" = .ok ts ∧ ts.map Token.kind = [.text, .comment, .interpolation] ∧
      Separates "é<#--<#-->$\x7ba\x7d" ts := by
  let text : Token := ⟨.text, ⟨0, 2⟩, "é", none, none, false, false⟩
  let comment : Token := ⟨.comment, ⟨2, 11⟩, "<#--<#-->", none, none, false, false⟩
  let params : Params := ⟨"a", ⟨13, 14⟩, [⟨"a", ⟨13, 14⟩⟩]⟩
  let interpolation : Token := ⟨.interpolation, ⟨11, 15⟩, "$\x7ba\x7d", none, some params, false, false⟩
  have hscan : scan "é<#--<#-->$\x7ba\x7d" = ([text, comment, interpolation], none) := by
    decide +kernel
  have htokens : tokenize "é<#--<#-->$\x7ba\x7d" = .ok [text, comment, interpolation] := by
    rw [tokenize, hscan]
  exact ⟨_, htokens, rfl, separates_of_tokenize htokens⟩

end TemplateSyntax.Markup
