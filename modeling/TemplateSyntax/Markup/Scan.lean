import TemplateSyntax.Markup.Lexeme

/-!
# Scanning

Scanning a template cuts it into lexemes and gives each its place: a lexeme starts where the one before it ended.
Positions come from byte lengths alone.
-/

namespace TemplateSyntax.Markup

open Text (byteLength)

/-! ### Tokens from lexemes -/

/-- The fragments of a region that starts at offset `start`. -/
def fragmentsAt (start : Nat) : List (List Char × List Char) → List Fragment
  | [] => []
  | (blanks, text) :: pieces =>
    let first := start + byteLength blanks
    let last := first + byteLength text
    ⟨String.ofList text, ⟨first, last⟩⟩ :: fragmentsAt last pieces

/-- The parameters of a region that starts at offset `start`. Without a fragment there are none. -/
def Region.params? (r : Region) (start : Nat) : Option Params :=
  match r.pieces with
  | [] => none
  | (blanks, text) :: pieces =>
    let body := text ++ pieces.flatMap fun p => p.1 ++ p.2
    let first := start + byteLength blanks
    some ⟨String.ofList body, ⟨first, first + byteLength body⟩, fragmentsAt start r.pieces⟩

namespace Lexeme

def kind : Lexeme → TokenKind
  | .text _ => .text
  | .comment _ => .comment
  | .tag opener _ _ => if opener.isMacro then .macroTag else .directive
  | .interpolation _ => .interpolation

/-- The token of a lexeme that starts at offset `start`. -/
def token (start : Nat) (x : Lexeme) : Token where
  kind := x.kind
  span := ⟨start, start + byteLength x.chars⟩
  raw := String.ofList x.chars
  tag :=
    match x with
    | .tag _ name _ => some (String.ofList name)
    | _ => none
  params :=
    match x with
    | .tag opener name region => region.params? (start + byteLength (opener.text ++ name))
    | .interpolation region => region.params? (start + byteLength interpolationOpen)
    | _ => none
  closing :=
    match x with
    | .tag opener _ _ => opener.closing
    | _ => false
  selfClosing :=
    match x with
    | .tag _ _ region => region.marker == .selfClose
    | _ => false

end Lexeme

/-- The tokens of adjacent lexemes, the first of which starts at offset `start`. -/
def tokensAt (start : Nat) : List Lexeme → List Token
  | [] => []
  | x :: xs => x.token start :: tokensAt (start + byteLength x.chars) xs

/-! ### Errors -/

structure ScanError where
  fault : ScanFault
  span : Span
deriving DecidableEq, Inhabited

namespace ScanError

def message (e : ScanError) : String := e.fault.message

def display (e : ScanError) : String :=
  "Lexer error at offset " ++ e.span.start.repr ++ ": " ++ e.message

end ScanError

/-- A bracket that closes nothing is one byte long; anything unclosed runs from its start to the end of the text. -/
def Failure.error (start : Nat) (rest : List Char) (f : Failure) : ScanError :=
  match f.fault with
  | .bracketUnderflow => ⟨f.fault, ⟨start + byteLength f.before, start + byteLength f.before + 1⟩⟩
  | _ => ⟨f.fault, ⟨start, start + byteLength rest⟩⟩

/-! ### Scanning a text -/

/-- The tokens of a text that starts at offset `start`, and the error that ends them, if any. -/
def scanAt (start : Nat) (cs : List Char) : List Token × Option ScanError :=
  let (xs, failure?) := lexemes cs
  let stop := start + byteLength (xs.flatMap Lexeme.chars)
  (tokensAt start xs, failure?.map fun (failure, rest) => failure.error stop rest)

def scan (source : String) : List Token × Option ScanError :=
  scanAt 0 source.toList

/-- The tokens of a whole template. -/
def tokenize (source : String) : Except ScanError (List Token) :=
  match scan source with
  | (tokens, none) => .ok tokens
  | (_, some error) => .error error

end TemplateSyntax.Markup
