import TemplateSyntax.Markup.Symbol
import TemplateSyntax.Text.Bytes

/-!
# Parameter regions

Between its name and its end marker a tag holds fragments separated by blanks. A blank or a marker inside brackets
or a string does not count, and a backslash inside a string protects the next character. The three kinds of bracket
share one depth counter. A region keeps all that was read: `append_of_region` gives the text back.
-/

namespace TemplateSyntax.Markup

open Text (isTagBlank byteLength append_of_firstMatch)

def isQuote (c : Char) : Bool := c == '"' || c == '\''

def opensBracket (c : Char) : Bool := c == '(' || c == '[' || c == '{'

def closesBracket (c : Char) : Bool := c == ')' || c == ']' || c == '}'

/-! ### Nesting -/

/-- Where a character of a region stands: outside strings, inside a string, or after a backslash in a string, with
`depth` brackets open. -/
inductive Nesting where
  | plain (depth : Nat)
  | quoted (quote : Char) (depth : Nat)
  | escaped (quote : Char) (depth : Nat)
deriving DecidableEq, Inhabited

/-- The nesting after one more character; a bracket that closes nothing has none. -/
def Nesting.step (c : Char) : Nesting → Option Nesting
  | .escaped q depth => some (.quoted q depth)
  | .quoted q depth =>
    if c = '\\' then some (.escaped q depth) else if c = q then some (.plain depth) else some (.quoted q depth)
  | .plain depth =>
    if isQuote c then some (.quoted c depth)
    else if opensBracket c then some (.plain (depth + 1))
    else if closesBracket c then
      match depth with
      | 0 => none
      | depth + 1 => some (.plain depth)
    else some (.plain depth)

/-! ### Fragments -/

/-- How the reading of a fragment ends: before a blank or marker, at a bracket that closes nothing, or with the
input. -/
inductive Cut where
  | ended (text rest : List Char)
  | underflow (before : List Char)
  | ranOut
deriving DecidableEq

/-- The same end, after one more character. -/
def Cut.cons (c : Char) : Cut → Cut
  | .ended text rest => .ended (c :: text) rest
  | .underflow before => .underflow (c :: before)
  | .ranOut => .ranOut

/-- Reads on in a fragment. Only outside brackets and strings can it end. -/
def fragment (e : Enclosure) : Nesting → List Char → Cut
  | _, [] => .ranOut
  | nesting, c :: cs =>
    if nesting = .plain 0 && e.stopsAt c cs then .ended [] (c :: cs)
    else
      match nesting.step c with
      | none => .underflow []
      | some nesting => (fragment e nesting cs).cons c

theorem Cut.cons_eq_ended {c : Char} {k : Cut} {text rest : List Char} (h : k.cons c = .ended text rest) :
    ∃ t, text = c :: t ∧ k = .ended t rest := by
  cases k <;> simp_all [Cut.cons]

theorem append_of_fragment {e : Enclosure} {nesting : Nesting} {cs text rest : List Char}
    (h : fragment e nesting cs = .ended text rest) : cs = text ++ rest := by
  induction cs generalizing nesting text with
  | nil => simp [fragment] at h
  | cons c cs ih =>
    rw [fragment] at h
    split at h
    · cases h; rfl
    · split at h
      · cases h
      · obtain ⟨t, rfl, hk⟩ := Cut.cons_eq_ended h
        rw [ih hk, List.cons_append]

/-- A fragment that starts where it may not stop has a character. -/
theorem fragment_ne_nil {e : Enclosure} {nesting : Nesting} {c : Char} {cs text rest : List Char}
    (hc : e.stopsAt c cs = false) (h : fragment e nesting (c :: cs) = .ended text rest) : text ≠ [] := by
  rw [fragment, hc, Bool.and_false, if_neg (by simp)] at h
  split at h
  · cases h
  · obtain ⟨t, rfl, -⟩ := Cut.cons_eq_ended h
    simp

/-! ### Regions -/

/-- The text of a region: each fragment after its blanks, then the blanks before the end marker. -/
structure Region where
  pieces : List (List Char × List Char)
  blanks : List Char
  marker : Marker
deriving DecidableEq, Inhabited

def Region.chars (r : Region) : List Char :=
  r.pieces.flatMap (fun p => p.1 ++ p.2) ++ r.blanks ++ r.marker.text

inductive RegionCut where
  | ended (region : Region) (rest : List Char)
  | underflow (before : List Char)
  | ranOut
deriving DecidableEq

/-- The same end, after one more piece. -/
def RegionCut.cons (piece : List Char × List Char) : RegionCut → RegionCut
  | .ended region rest => .ended { region with pieces := piece :: region.pieces } rest
  | .underflow before => .underflow (piece.1 ++ piece.2 ++ before)
  | .ranOut => .ranOut

private theorem length_lt_of_fragment {e : Enclosure} {cs text rest : List Char}
    (hm : e.marker? (cs.dropWhile isTagBlank) = none)
    (h : fragment e (.plain 0) (cs.dropWhile isTagBlank) = .ended text rest) : rest.length < cs.length := by
  have hle : (cs.dropWhile isTagBlank).length ≤ cs.length := (List.dropWhile_sublist _).length_le
  have happ := append_of_fragment h
  have hne : text ≠ [] := by
    rintro rfl
    cases hd : cs.dropWhile isTagBlank with
    | nil => rw [hd] at h; simp [fragment] at h
    | cons c ds =>
      rw [hd] at h hm
      have hb : isTagBlank c = false := by
        have := List.head?_dropWhile_not isTagBlank cs
        rw [hd] at this; simpa using this
      exact fragment_ne_nil (by simp [Enclosure.stopsAt, hb, hm]) h rfl
  have := List.length_pos_iff.mpr hne
  rw [happ, List.length_append] at hle
  omega

/-- Reads a region up to and with its end marker. -/
def region (e : Enclosure) (cs : List Char) : RegionCut :=
  let blanks := cs.takeWhile isTagBlank
  match _hm : e.marker? (cs.dropWhile isTagBlank) with
  | some (marker, rest) => .ended ⟨[], blanks, marker⟩ rest
  | none =>
    match _h : fragment e (.plain 0) (cs.dropWhile isTagBlank) with
    | .ended text rest => (region e rest).cons (blanks, text)
    | .underflow before => .underflow (blanks ++ before)
    | .ranOut => .ranOut
termination_by cs.length
decreasing_by exact length_lt_of_fragment _hm _h

theorem region_eq (e : Enclosure) (cs : List Char) :
    region e cs =
      match e.marker? (cs.dropWhile isTagBlank) with
      | some (marker, rest) => .ended ⟨[], cs.takeWhile isTagBlank, marker⟩ rest
      | none =>
        match fragment e (.plain 0) (cs.dropWhile isTagBlank) with
        | .ended text rest => (region e rest).cons (cs.takeWhile isTagBlank, text)
        | .underflow before => .underflow (cs.takeWhile isTagBlank ++ before)
        | .ranOut => .ranOut := by
  rw [region]
  split
  · next h => simp [h]
  · next h => simp only [h]; split <;> simp_all

theorem RegionCut.cons_eq_ended {piece : List Char × List Char} {k : RegionCut} {r : Region} {rest : List Char}
    (h : k.cons piece = .ended r rest) :
    ∃ r', r = { r' with pieces := piece :: r'.pieces } ∧ k = .ended r' rest := by
  cases k <;> simp_all [RegionCut.cons]

theorem append_of_region {e : Enclosure} {cs rest : List Char} {r : Region} (h : region e cs = .ended r rest) :
    cs = r.chars ++ rest := by
  rw [region_eq] at h
  split at h
  · next hm =>
    cases h
    have := append_of_firstMatch hm
    simp [Region.chars, ← this]
  · next hm =>
    split at h
    · next text rest' hf =>
      have : rest'.length < cs.length := length_lt_of_fragment hm hf
      obtain ⟨r', rfl, hk⟩ := RegionCut.cons_eq_ended h
      have := append_of_region hk
      have hf := append_of_fragment hf
      rw [this] at hf
      conv => lhs; rw [← List.takeWhile_append_dropWhile (p := isTagBlank) (l := cs), hf]
      simp [Region.chars]
    · cases h
    · cases h
termination_by cs.length

end TemplateSyntax.Markup
