import TemplateSyntax.Markup.Token
import TemplateSyntax.Text.Blank
import TemplateSyntax.Text.Match

/-!
# Opening symbols and end markers

Markup starts at one of six opening symbols. They are probed in a fixed order, so that `<#--` is found before `<#`
and a closing form before an opening one. A parameter region runs to an end marker, which depends on whether a tag
or an interpolation encloses it.
-/

namespace TemplateSyntax.Markup

open Text (firstMatch)

/-! ### Opening symbols -/

/-- The opening symbol of a tag: `<#`, `</#`, `<@` or `</@`. -/
structure TagOpener where
  isMacro : Bool
  closing : Bool
deriving DecidableEq, Inhabited

def TagOpener.text : TagOpener → List Char
  | ⟨false, true⟩ => ['<', '/', '#']
  | ⟨false, false⟩ => ['<', '#']
  | ⟨true, true⟩ => ['<', '/', '@']
  | ⟨true, false⟩ => ['<', '@']

inductive Opener where
  | comment
  | tag (opener : TagOpener)
  | interpolation
deriving DecidableEq, Inhabited

def interpolationOpen : List Char := ['$', '{']

def Opener.text : Opener → List Char
  | .comment => commentOpen
  | .tag opener => opener.text
  | .interpolation => interpolationOpen

/-- The opening symbols in the order in which they are probed. -/
def Opener.all : List Opener :=
  [.comment, .tag ⟨false, true⟩, .tag ⟨false, false⟩, .tag ⟨true, true⟩, .tag ⟨true, false⟩,
    .interpolation]

/-- The symbol that starts `cs`, with what follows it. -/
def opener? (cs : List Char) : Option (Opener × List Char) :=
  firstMatch Opener.text Opener.all cs

/-! ### End markers -/

inductive Marker where
  | selfClose
  | close
  | brace
deriving DecidableEq, Inhabited

def Marker.text : Marker → List Char
  | .selfClose => ['/', '>']
  | .close => ['>']
  | .brace => ['}']

/-- What a parameter region stands in. -/
inductive Enclosure where
  | tag
  | interpolation
deriving DecidableEq, Inhabited

def Enclosure.markers : Enclosure → List Marker
  | .tag => [.selfClose, .close]
  | .interpolation => [.brace]

/-- The end marker that starts `cs`, with what follows it. -/
def Enclosure.marker? (e : Enclosure) (cs : List Char) : Option (Marker × List Char) :=
  firstMatch Marker.text e.markers cs

@[simp] theorem Enclosure.marker?_nil (e : Enclosure) : e.marker? [] = none := by
  cases e <;> rfl

/-- The character is a blank, or starts an end marker: a name stops here, and so does a fragment outside brackets
and strings. -/
def Enclosure.stopsAt (e : Enclosure) (c : Char) (cs : List Char) : Bool :=
  Text.isTagBlank c || (e.marker? (c :: cs)).isSome

end TemplateSyntax.Markup
