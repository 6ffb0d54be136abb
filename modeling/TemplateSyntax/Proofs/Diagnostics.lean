import TemplateSyntax.Command.Run
import TemplateSyntax.Proofs.Concatenation
import TemplateSyntax.Proofs.Expr.Faults
import TemplateSyntax.Proofs.Markup.Failures
import TemplateSyntax.Proofs.Tree.Reports
import TemplateSyntax.Proofs.Tree.Spans
import TemplateSyntax.Proofs.Tree.Unclosed

/-!
# Every diagnostic has a position

The spans of errors come from three places: the scanner counts lexemes, the readers of expressions count from the start
of the parameters, and the builder takes the spans of tokens and nodes. All of them run from one boundary of the source
to another, so every diagnostic is rendered with a line and a column (`located_parse`).
-/

namespace TemplateSyntax

open Markup (Token)
open Text (IsBoundary Marks slice? marks_of_slice?)

/-! ### Errors of the scanner -/

theorem Markup.marks_of_tokenize {source : String} {e : Markup.ScanError} (h : Markup.tokenize source = .error e) :
    Marks source.toList e.span := by
  by_cases hfault : e.fault = .bracketUnderflow
  · obtain ⟨-, -, c, hslice, -⟩ := Markup.hopeless_of_tokenize h hfault
    exact marks_of_slice? hslice
  · obtain ⟨-, front, rest, -, hsplit, hstop, -, -⟩ := Markup.incomplete_of_tokenize h hfault
    obtain ⟨hsource, hstart⟩ := Text.splitBytes?_eq_some_iff.mp hsplit
    have hends : IsBoundary source.toList e.span.stop :=
      ⟨source.toList, [], (List.append_nil _).symm, by rw [hstop, Text.byteLength_toList]⟩
    have hbegins : IsBoundary source.toList e.span.start := ⟨front, rest, hsource, hstart⟩
    refine hbegins.marks hends ?_
    rw [hstop, ← Text.byteLength_toList]
    exact hbegins.le

/-! ### Errors of expressions -/

/-- The error is about a place in the parameters of the token. -/
def ExprError.IsIn (e : ExprError) (t : Token) : Prop :=
  ∃ p ∈ t.params, p.span.contains e.span = true

theorem ExprError.located {source : String} {t : Token} {kind : Kind} {e : ExprError}
    (ht : t.InPlace source.toList) (h : kind.readParams t = .error e) : Marks source.toList e.span ∧ e.IsIn t := by
  obtain ⟨p, hp, hparse⟩ := kind.exists_of_readParams_error h
  have hcovers := (ht.params p hp).covers
  obtain ⟨hle, ⟨start, hstart, hfirst⟩, ⟨stop, hstop, hlast⟩⟩ := Expr.sits_of_parseAt hparse
  obtain ⟨hbegins, -⟩ := hfirst.of_slice? hcovers
  obtain ⟨hends, hinside⟩ := hlast.of_slice? hcovers
  rw [← hstart] at hbegins
  rw [← hstop] at hends hinside
  exact ⟨hbegins.marks hends hle, p, hp, Span.contains_iff.mpr ⟨hstart ▸ Nat.le_add_right .., hinside⟩⟩

/-! ### Structural errors -/

/-- A span from one token of a source to a later one. -/
theorem Markup.Tiles.marks_upTo {source : String} {before after : List Token} {a c : Token}
    (h : Markup.Tiles source (before ++ c :: after)) (ha : a ∈ before) : Marks source.toList (a.span.upTo c.span) := by
  have hstart := (marks_of_slice? (h.inPlace a (List.mem_append_left _ ha)).covers).start
  have hstop := (marks_of_slice? (h.inPlace c (by simp)).covers).stop
  have hin := Markup.inOrder_of_contiguous h.contiguous
  rw [List.map_append] at hin
  obtain ⟨m, hbefore, hle, hlt, -⟩ := Span.inOrder_append.mp hin
  obtain ⟨-, hlt', hle'⟩ := hbefore.of_mem (List.mem_map_of_mem ha)
  have horder : a.span.start ≤ c.span.stop := by omega
  exact ⟨horder, hstop.le, hstart, hstop⟩

theorem Builder.About.marks {source : String} {stop : Nat} {ts : List Token} {e : StructuralError}
    (h : About stop ts e) (hts : Markup.Tiles source ts) : Marks source.toList e.span := by
  cases h with
  | token ht hspan =>
    rw [hspan]
    exact marks_of_slice? (hts.inPlace _ ht).covers
  | attempt heq ha _ _ _ _ _ herror =>
    subst heq herror
    exact hts.marks_upTo ha

/-! ### Diagnostics -/

namespace Diagnostic

/-- The diagnostic is rendered with the line and the column of its start. -/
def Placed (source : String) (d : Diagnostic) : Prop :=
  ∃ p, Position.at? source d.span.start = some p ∧ d.position = some p ∧
    ∀ path, d.render path = path ++ ":" ++ (p.line.repr ++ ":" ++ p.column.repr) ++ ": " ++ d.message

theorem placed_new {source : String} {span : Span} (h : Marks source.toList span) (message : String) :
    (new source message span).Placed source := by
  obtain ⟨p, hp⟩ := Option.isSome_iff_exists.mp (Position.at?_isSome_iff.mpr h.start)
  refine ⟨p, hp, hp, fun path => ?_⟩
  have hposition : (new source message span).position = some p := hp
  rw [render, hposition]

end Diagnostic

namespace Template

/-- What an error that ends the parsing of a source is about. -/
def Error.IsLocated (source : String) (e : Error) : Prop :=
  Marks source.toList e.span ∧
    ∀ x, e = .expr x → ∃ ts, Markup.tokenize source = .ok ts ∧ ∃ t ∈ ts, t.closing = false ∧ x.IsIn t

theorem isLocated_of_parse {source : String} {basePath : Option String} {e : Error}
    (h : parse source basePath = .error e) : e.IsLocated source := by
  unfold parse at h
  split at h
  · next scanError htokens =>
    cases h
    exact ⟨Markup.marks_of_tokenize htokens, fun x hx => nomatch hx⟩
  · next ts htokens =>
    split at h
    · next exprError hprogram =>
      cases h
      unfold Program.ofTokens at hprogram
      split at hprogram
      · cases hprogram
      · next hrun =>
        cases hprogram
        obtain ⟨t, ht, hopening, kind, hread⟩ := Builder.exists_opening_of_pushAll_error hrun
        obtain ⟨hmarks, hin⟩ := ExprError.located ((Markup.tiles_of_tokenize htokens).inPlace t ht) hread
        refine ⟨hmarks, fun x hx => ?_⟩
        cases hx
        exact ⟨ts, htokens, t, ht, hopening, hin⟩
    · cases h

theorem marks_of_mem_errors {source : String} {basePath : Option String} {template : Template}
    (h : parse source basePath = .ok template) :
    ∀ e ∈ template.program.errors, Marks source.toList e.span ∧
      Builder.About source.utf8ByteSize template.tokens e := by
  obtain ⟨b, htokens, hrun, heq⟩ := parse_eq_ok_iff.mp h
  have hprogram : template.program = b.finish := congrArg Template.program heq
  intro e he
  rw [hprogram, Builder.feed_of_pushAll hrun] at he
  have habout := Builder.about_of_mem_errors source.utf8ByteSize template.tokens e he
  exact ⟨habout.marks (Markup.tiles_of_tokenize htokens), habout⟩

theorem placed_of_mem_diagnostics {source : String} {d : Diagnostic} (h : d ∈ Command.diagnostics source) :
    d.Placed source := by
  unfold Command.diagnostics at h
  split at h
  · next template hparse =>
    obtain ⟨e, he, rfl⟩ := List.mem_map.mp h
    exact Diagnostic.placed_new (marks_of_mem_errors hparse e he).1 _
  · next e hparse =>
    rw [List.mem_singleton.mp h]
    exact Diagnostic.placed_new (isLocated_of_parse hparse).1 _

/-- What is wrong with a source is told of a stretch of it. An error in an expression is about the parameters of a token
that is no closing tag, a structural one about a token, or about an attempt from its tag to the one that closes it. So
every diagnostic has a line and a column. -/
theorem located_parse (source : String) (basePath : Option String) :
    (∀ e, Markup.tokenize source = .error e →
      Marks source.toList e.span ∧ (Diagnostic.ofError source (.scan e)).Placed source) ∧
    (match parse source basePath with
      | .error e => e.IsLocated source
      | .ok template => ∀ e ∈ template.program.errors, Marks source.toList e.span ∧
          Builder.About source.utf8ByteSize template.tokens e) ∧
    ∀ d ∈ Command.diagnostics source, d.Placed source := by
  refine ⟨fun e htokens => ?_, ?_, fun d => placed_of_mem_diagnostics⟩
  · have hmarks := Markup.marks_of_tokenize htokens
    exact ⟨hmarks, Diagnostic.placed_new hmarks _⟩
  split
  · next hparse => exact isLocated_of_parse hparse
  · next hparse => exact marks_of_mem_errors hparse

end Template

end TemplateSyntax
