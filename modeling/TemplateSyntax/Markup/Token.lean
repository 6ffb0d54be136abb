import TemplateSyntax.Span

/-!
# Markup tokens

A template is a sequence of tokens: plain text, comments, directive tags such as `<#if x>`, macro tags such as
`<@box/>`, and interpolations. A token keeps the text that it covers and, for tags and interpolations, the
parameters between the name and the end marker.
-/

namespace TemplateSyntax.Markup

inductive TokenKind where
  | text
  | comment
  | directive
  | macroTag
  | interpolation
deriving DecidableEq, Inhabited

/-- The name of the kind in printed tokens. -/
def TokenKind.name : TokenKind → String
  | .text => "Text"
  | .comment => "Comment"
  | .directive => "Directive"
  | .macroTag => "Macro"
  | .interpolation => "Interpolation"

/-- A piece of the parameters that has no blank outside brackets and strings. -/
structure Fragment where
  text : String
  span : Span
deriving DecidableEq, Inhabited

/-- The parameters of a tag or interpolation: the text from the first fragment to the last, blanks between them
included. -/
structure Params where
  text : String
  span : Span
  fragments : List Fragment
deriving DecidableEq, Inhabited

structure Token where
  kind : TokenKind
  span : Span
  raw : String
  tag : Option String := none
  params : Option Params := none
  closing : Bool := false
  selfClosing : Bool := false
deriving DecidableEq, Inhabited

def commentOpen : List Char := ['<', '#', '-', '-']

def commentClose : List Char := ['-', '-', '>']

namespace Token

/-- What stands between `<#--` and `-->` in a comment. -/
def commentBody? (t : Token) : Option String :=
  match t.kind with
  | .comment => ((commentOpen.isPrefixOf? t.raw.toList).bind commentClose.isSuffixOf?).map String.ofList
  | _ => none

/-- How messages name the token: a tag by its name and opening symbol, anything else by its kind. -/
def label (t : Token) : String :=
  let tag := t.tag.getD ""
  match t.kind, t.closing with
  | .macroTag, true => "</@" ++ tag ++ ">"
  | .macroTag, false => "<@" ++ tag ++ ">"
  | .directive, true => "</#" ++ tag ++ ">"
  | .directive, false => "<#" ++ tag ++ ">"
  | .interpolation, _ => "$\x7b...\x7d"
  | .text, _ => "text"
  | .comment, _ => "comment"

end Token

end TemplateSyntax.Markup
