import TemplateSyntax.Markup.Region

/-!
# Lexemes

A template splits into lexemes: runs of text without an opening symbol, comments, tags and interpolations. A lexeme
is read without regard to where it stands, and `Lexeme.chars` gives back the text it was read from, so a list of
lexemes is the template cut into pieces.
-/

namespace TemplateSyntax.Markup

open Text (isTagBlank byteLength append_of_firstMatch isPrefixOf?_eq_some)

inductive Lexeme where
  | text (body : List Char)
  | comment (body : List Char)
  | tag (opener : TagOpener) (name : List Char) (region : Region)
  | interpolation (region : Region)
deriving DecidableEq, Inhabited

def Lexeme.chars : Lexeme → List Char
  | .text body => body
  | .comment body => commentOpen ++ body ++ commentClose
  | .tag opener name region => opener.text ++ name ++ region.chars
  | .interpolation region => interpolationOpen ++ region.chars

/-! ### Parts of a lexeme -/

/-- The text before the first opening symbol, and the rest. -/
def textRun : List Char → List Char × List Char
  | [] => ([], [])
  | c :: cs => if (opener? (c :: cs)).isSome then ([], c :: cs) else (c :: (textRun cs).1, (textRun cs).2)

/-- What stands before the first `-->`, and what follows it. -/
def commentBody? : List Char → Option (List Char × List Char)
  | [] => none
  | c :: cs =>
    match commentClose.isPrefixOf? (c :: cs) with
    | some rest => some ([], rest)
    | none => (commentBody? cs).map fun (body, rest) => (c :: body, rest)

/-- The name of a tag, and the rest. -/
def nameRun : List Char → List Char × List Char
  | [] => ([], [])
  | c :: cs => if Enclosure.tag.stopsAt c cs then ([], c :: cs) else (c :: (nameRun cs).1, (nameRun cs).2)

theorem append_textRun (cs : List Char) : (textRun cs).1 ++ (textRun cs).2 = cs := by
  induction cs with
  | nil => rfl
  | cons c cs ih => rw [textRun]; split <;> simp [ih]

theorem append_nameRun (cs : List Char) : (nameRun cs).1 ++ (nameRun cs).2 = cs := by
  induction cs with
  | nil => rfl
  | cons c cs ih => rw [nameRun]; split <;> simp [ih]

theorem append_of_commentBody? {cs body rest : List Char} (h : commentBody? cs = some (body, rest)) :
    cs = body ++ commentClose ++ rest := by
  induction cs generalizing body with
  | nil => simp [commentBody?] at h
  | cons c cs ih =>
    rw [commentBody?] at h
    split at h
    · next hp => cases h; exact isPrefixOf?_eq_some hp
    · obtain ⟨p, hp, e⟩ := Option.map_eq_some_iff.mp h
      cases e
      rw [ih hp]; simp

/-! ### Reading -/

inductive ScanFault where
  | unclosedComment
  | unclosedTag (opening : String)
  | bracketUnderflow
deriving DecidableEq, Inhabited

def ScanFault.message : ScanFault → String
  | .unclosedComment => "unclosed comment"
  | .unclosedTag opening => "unclosed tag: `" ++ opening ++ "` is never terminated"
  | .bracketUnderflow => "bracket level < 0"

/-- Why no lexeme could be read, and the text before the offending bracket; nothing comes before the fault when a
lexeme does not end. -/
structure Failure where
  fault : ScanFault
  before : List Char
deriving DecidableEq, Inhabited

/-- The region after `opening`, put into a lexeme. -/
def readRegion (e : Enclosure) (opening : List Char) (build : Region → Lexeme) (cs : List Char) :
    Except Failure (Lexeme × List Char) :=
  match region e cs with
  | .ended region rest => .ok (build region, rest)
  | .underflow before => .error ⟨.bracketUnderflow, opening ++ before⟩
  | .ranOut => .error ⟨.unclosedTag (String.ofList opening), []⟩

/-- The lexeme at the start of `cs`, and the rest. -/
def Lexeme.read (cs : List Char) : Except Failure (Lexeme × List Char) :=
  match opener? cs with
  | none => .ok (.text (textRun cs).1, (textRun cs).2)
  | some (.comment, rest) =>
    match commentBody? rest with
    | some (body, rest) => .ok (.comment body, rest)
    | none => .error ⟨.unclosedComment, []⟩
  | some (.tag opener, rest) =>
    let name := (nameRun rest).1
    readRegion .tag (opener.text ++ name) (.tag opener name) (nameRun rest).2
  | some (.interpolation, rest) => readRegion .interpolation interpolationOpen .interpolation rest

theorem append_of_readRegion {e : Enclosure} {opening cs rest : List Char} {build : Region → Lexeme} {x : Lexeme}
    (h : readRegion e opening build cs = .ok (x, rest)) : ∃ r : Region, x = build r ∧ cs = r.chars ++ rest := by
  unfold readRegion at h
  split at h
  · next hr => cases h; exact ⟨_, rfl, append_of_region hr⟩
  · cases h
  · cases h

theorem Lexeme.append_of_read {cs rest : List Char} {x : Lexeme} (h : Lexeme.read cs = .ok (x, rest)) :
    cs = x.chars ++ rest := by
  unfold Lexeme.read at h
  split at h
  · cases h; exact (append_textRun cs).symm
  · next ho =>
    split at h
    · next hb =>
      cases h
      rw [append_of_firstMatch ho, append_of_commentBody? hb]
      simp [Lexeme.chars, Opener.text]
    · cases h
  · next opener r ho =>
    obtain ⟨region, rfl, hr⟩ := append_of_readRegion h
    rw [append_of_firstMatch ho]
    simp [Lexeme.chars, Opener.text, ← hr, append_nameRun]
  · next r ho =>
    obtain ⟨region, rfl, hr⟩ := append_of_readRegion h
    rw [append_of_firstMatch ho, hr]
    simp [Lexeme.chars, Opener.text]

theorem Lexeme.chars_ne_nil {c : Char} {cs rest : List Char} {x : Lexeme}
    (h : Lexeme.read (c :: cs) = .ok (x, rest)) : x.chars ≠ [] := by
  unfold Lexeme.read at h
  split at h
  · next ho => cases h; simp [Lexeme.chars, textRun, ho]
  · split at h
    · cases h; simp [Lexeme.chars, commentOpen]
    · cases h
  · next opener r ho =>
    obtain ⟨region, rfl, -⟩ := append_of_readRegion h
    rcases opener with ⟨_ | _, _ | _⟩ <;> simp [Lexeme.chars, TagOpener.text]
  · next r ho =>
    obtain ⟨region, rfl, -⟩ := append_of_readRegion h
    simp [Lexeme.chars, interpolationOpen]

theorem Lexeme.length_lt_of_read {c : Char} {cs rest : List Char} {x : Lexeme}
    (h : Lexeme.read (c :: cs) = .ok (x, rest)) : rest.length < (c :: cs).length := by
  have happ := congrArg List.length (append_of_read h)
  have := List.length_pos_iff.mpr (chars_ne_nil h)
  rw [List.length_append] at happ
  omega

/-- The lexemes of a text. If one cannot be read, those before it, the failure and the text from there on. -/
def lexemes : List Char → List Lexeme × Option (Failure × List Char)
  | [] => ([], none)
  | c :: cs =>
    match _h : Lexeme.read (c :: cs) with
    | .ok (x, rest) => (x :: (lexemes rest).1, (lexemes rest).2)
    | .error failure => ([], some (failure, c :: cs))
termination_by cs => cs.length
decreasing_by all_goals exact Lexeme.length_lt_of_read _h

theorem lexemes_cons (c : Char) (cs : List Char) :
    lexemes (c :: cs) =
      match Lexeme.read (c :: cs) with
      | .ok (x, rest) => (x :: (lexemes rest).1, (lexemes rest).2)
      | .error failure => ([], some (failure, c :: cs)) := by
  rw [lexemes]
  split <;> simp_all

end TemplateSyntax.Markup
