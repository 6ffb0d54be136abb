import TemplateSyntax.Text.Alphabetic
import TemplateSyntax.Text.Match
import TemplateSyntax.Expr.Error
import TemplateSyntax.Expr.Numeral

/-!
# Reading one token

One token is read at the start of a text, without regard to where the text stands. Which reader is taken depends on
the first character; a period before a digit depends on the previous token too. A reader that fails has used some of
the text as well, and reading may go on after that: `append_readToken` says that nothing is lost either way.
-/

namespace TemplateSyntax.Expr

open Text (isAlphabetic firstMatch append_of_firstMatch)

/-- The text that a reader used, the rest, and the token or fault it found. -/
structure Reading where
  used : List Char
  rest : List Char
  result : Except Fault TokenKind

/-! ### Names -/

def isNameStart (c : Char) : Bool :=
  isAlphabetic c || c == '_' || c == '$'

def isNamePart (c : Char) : Bool :=
  isNameStart c || c.isDigit

def readName (cs : List Char) : Reading :=
  let name := cs.takeWhile isNamePart
  ⟨name, cs.dropWhile isNamePart, .ok (.identifier (String.ofList name))⟩

/-! ### Numbers -/

/-- What may not follow a number directly: a name, or another period. -/
def followFault? : List Char → Option Fault
  | [] => none
  | c :: _ => if isNameStart c then some .nameAfterNumber else if c = '.' then some .strayPeriod else none

def Numeral.reading (n : Numeral) (rest : List Char) : Reading :=
  ⟨n.chars, rest,
    match followFault? rest with
    | some fault => .error fault
    | none => .ok (.number n.value)⟩

def readNumber (cs : List Char) : Reading :=
  match exponentPart (mantissa cs).2 with
  | .absent => (mantissa cs).1.reading (mantissa cs).2
  | .present exponent rest => { (mantissa cs).1 with exponent := some exponent : Numeral }.reading rest
  | .broken used rest => ⟨(mantissa cs).1.chars ++ used, rest, .error .missingExponent⟩

/-! ### Strings -/

/-- The characters that a backslash and `c` stand for. After a backslash that means nothing both stay. -/
def unescape (c : Char) : List Char :=
  if c = 'n' then ['\n']
  else if c = 'r' then ['\r']
  else if c = 't' then ['\t']
  else if c = 'b' then ['\x08']
  else if c = 'f' then ['\x0c']
  else if c = 'v' then ['\x0b']
  else if c = '\\' ∨ c = '"' ∨ c = '\'' then [c]
  else ['\\', c]

/-- A string after its opening quote: the text used, the value, and the rest after the closing quote if there is one. -/
structure StringBody where
  used : List Char
  value : List Char
  rest : Option (List Char)
deriving DecidableEq, Inhabited

/-- The same body, after more of the string. -/
def StringBody.cons (used value : List Char) (b : StringBody) : StringBody :=
  { b with used := used ++ b.used, value := value ++ b.value }

def stringBody (quote : Char) : List Char → StringBody
  | [] => ⟨[], [], none⟩
  | c :: cs =>
    if c = quote then ⟨[c], [], some cs⟩
    else if c = '\\' then
      match cs with
      | [] => ⟨[c], [], none⟩
      | d :: cs => (stringBody quote cs).cons [c, d] (unescape d)
    else (stringBody quote cs).cons [c] [c]

def readString (quote : Char) (cs : List Char) : Reading :=
  let body := stringBody quote cs
  let value := String.ofList body.value
  match body.rest with
  | some rest => ⟨quote :: body.used, rest, .ok (.string value)⟩
  | none => ⟨quote :: body.used, [], .error (.unclosedQuote value)⟩

/-! ### Punctuation -/

/-- The longest punctuator that starts the text. -/
def readPunctuator (c : Char) (cs : List Char) : Reading :=
  match firstMatch Punctuator.text Punctuator.all (c :: cs) with
  | some (p, rest) => ⟨p.text, rest, .ok (.punctuator p)⟩
  | none => ⟨[], c :: cs, .error (.unexpectedCharacter c)⟩

/-! ### Tokens -/

/-- A number starts here: at a digit, or at a period before a digit unless an operand ended just before. -/
def startsNumber (afterOperand : Bool) (c : Char) (cs : List Char) : Bool :=
  c.isDigit || (c == '.' && cs.head?.any Char.isDigit && !afterOperand)

/-- The token at the start of `c :: cs`, where `c` is no blank. -/
def readToken (afterOperand : Bool) (c : Char) (cs : List Char) : Reading :=
  if startsNumber afterOperand c cs then readNumber (c :: cs)
  else if c = '"' ∨ c = '\'' then readString c cs
  else if isNameStart c then readName (c :: cs)
  else readPunctuator c cs

/-! ### Nothing is lost -/

theorem append_readNumber (cs : List Char) : (readNumber cs).used ++ (readNumber cs).rest = cs := by
  have h := append_mantissa cs
  unfold readNumber
  split
  · exact h
  · next he =>
    rw [← append_of_exponentPart_present he, ← List.append_assoc] at h
    rw [Numeral.reading, Numeral.chars_of_exponent (mantissa_exponent cs)]
    exact h
  · next he =>
    rw [← append_of_exponentPart_broken he, ← List.append_assoc] at h
    exact h

theorem append_stringBody (quote : Char) (cs : List Char) :
    (stringBody quote cs).used ++ (stringBody quote cs).rest.getD [] = cs := by
  fun_induction stringBody quote cs <;> simp_all [StringBody.cons]

theorem append_readToken (afterOperand : Bool) (c : Char) (cs : List Char) :
    (readToken afterOperand c cs).used ++ (readToken afterOperand c cs).rest = c :: cs := by
  unfold readToken
  split
  · exact append_readNumber _
  split
  · have h := append_stringBody c cs
    unfold readString
    simp only
    split <;> simp_all
  split
  · simp [readName]
  · unfold readPunctuator
    split
    · next h => exact (append_of_firstMatch h).symm
    · rfl

/-! ### Progress -/

private theorem readNumber_used_ne_nil {c : Char} (h : c.isDigit = true ∨ c = '.') (cs : List Char) :
    (readNumber (c :: cs)).used ≠ [] := by
  have hne := mantissa_ne_nil h cs
  unfold readNumber
  split
  · exact hne
  · simp [Numeral.reading, Numeral.chars_of_exponent (mantissa_exponent _), hne]
  · simp [hne]

private theorem readString_used_ne_nil (quote : Char) (cs : List Char) : (readString quote cs).used ≠ [] := by
  unfold readString
  simp only
  split <;> simp

/-- Only an unexpected character leaves all of the text. -/
theorem used_ne_nil_or (afterOperand : Bool) (c : Char) (cs : List Char) :
    (readToken afterOperand c cs).used ≠ [] ∨
      readToken afterOperand c cs = ⟨[], c :: cs, .error (.unexpectedCharacter c)⟩ := by
  unfold readToken
  split
  · next h =>
    refine .inl (readNumber_used_ne_nil ?_ cs)
    simp only [startsNumber, Bool.or_eq_true, Bool.and_eq_true, beq_iff_eq] at h
    exact h.imp_right fun h => h.1.1
  split
  · exact .inl (readString_used_ne_nil c cs)
  split
  · next h => exact .inl (by simp [readName, isNamePart, h])
  · unfold readPunctuator
    split
    · next p _ _ => exact .inl (by cases p <;> simp [Punctuator.text])
    · exact .inr rfl

end TemplateSyntax.Expr
