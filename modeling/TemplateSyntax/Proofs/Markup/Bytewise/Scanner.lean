import TemplateSyntax.Proofs.Markup.Seams
import TemplateSyntax.Proofs.Markup.Tiling

/-!
# Scanning byte by byte

The scanner can be run on the bytes of a template. It then looks for delimiters at every byte, a backslash in a string
skips one byte even if the next character has several, and texts are cut out of the template between two offsets, which
works at boundaries of characters only.

All delimiters are ASCII, so none is found inside a longer character, and searching bytes finds what searching
characters does (`seek_utf8`).
-/

namespace TemplateSyntax.Markup

open Text (isTagBlank byteLength utf8 latin slice? isAscii)

namespace Bytewise

/-! ### The scanner

Offsets count bytes, and the texts of bytes are read as the characters with their numbers. A result is missing if a cut
fails. -/

/-- The nearest place at which something is found, and what is found there. -/
def seek {α : Type} (found : List Char → Option α) : List UInt8 → Option (Nat × α)
  | [] => none
  | b :: bs =>
    match found (latin (b :: bs)) with
    | some a => some (0, a)
    | none => (seek found bs).map fun (n, a) => (n + 1, a)

/-- The opening symbol that starts the text. Only two characters can begin one. -/
def openerAt (cs : List Char) : Option Opener :=
  if cs.head? = some '<' ∨ cs.head? = some '$' then (opener? cs).map Prod.fst else none

def closeAt (cs : List Char) : Option Unit :=
  (commentClose.isPrefixOf? cs).map fun _ => ()

/-- A name stops at a blank or an end marker. -/
def nameStopAt : List Char → Option Unit
  | [] => none
  | c :: cs => if Enclosure.tag.stopsAt c cs then some () else none

/-- The fragments that are complete, the start of the open one, the quote of the open string and the number of open
brackets. -/
structure RegionState where
  fragments : List Fragment
  start : Option Nat
  quote : Option Char
  depth : Nat

/-- Cuts out the open fragment, if there is one. -/
def RegionState.close (source : List Char) (pos : Nat) (s : RegionState) : Option RegionState :=
  match s.start with
  | none => some s
  | some start =>
    (slice? source ⟨start, pos⟩).map fun text =>
      { s with fragments := s.fragments ++ [⟨String.ofList text, ⟨start, pos⟩⟩], start := none }

/-- Strings and brackets after a character outside strings; a bracket that closes nothing has none. -/
def RegionState.read (c : Char) (s : RegionState) : Option RegionState :=
  if isQuote c then some { s with quote := some c }
  else if opensBracket c then some { s with depth := s.depth + 1 }
  else if closesBracket c then
    match s.depth with
    | 0 => none
    | depth + 1 => some { s with depth }
  else some s

inductive RegionEnd where
  | ended (params : Option Params) (marker : Marker) (stop : Nat)
  | underflow (pos : Nat)
  | ranOut

/-- The parameters from the first fragment to the last. -/
def paramsFrom? (source : List Char) (fragments : List Fragment) : Option (Option Params) :=
  match fragments.head?, fragments.getLast? with
  | some first, some last =>
    (slice? source ⟨first.span.start, last.span.stop⟩).map fun text =>
      some ⟨String.ofList text, ⟨first.span.start, last.span.stop⟩, fragments⟩
  | _, _ => some none

def scanRegion (source : List Char) (e : Enclosure) : (pos : Nat) → RegionState → List UInt8 → Option RegionEnd
  | _, _, [] => some .ranOut
  | pos, s, b :: bs =>
    let c := Char.ofUInt8 b
    match s.quote with
    | some q =>
      if c = '\\' then
        match bs with
        | [] => some .ranOut
        | _ :: bs => scanRegion source e (pos + 2) s bs
      else scanRegion source e (pos + 1) (if c = q then { s with quote := none } else s) bs
    | none =>
      match if s.depth = 0 then e.marker? (latin (b :: bs)) else none with
      | some (marker, _) =>
        (s.close source pos).bind fun s =>
          (paramsFrom? source s.fragments).map fun params => .ended params marker (pos + marker.text.length)
      | none =>
        if s.depth = 0 ∧ isTagBlank c = true then
          (s.close source pos).bind fun s => scanRegion source e (pos + 1) s bs
        else
          match s.read c with
          | none => some (.underflow pos)
          | some s => scanRegion source e (pos + 1) { s with start := some (s.start.getD pos) } bs

/-- The token of what stands between two offsets. -/
def token? (source : List Char) (kind : TokenKind) (span : Span) (tag : Option String) (params : Option Params)
    (closing selfClosing : Bool) : Option Token :=
  (slice? source span).map fun raw => ⟨kind, span, String.ofList raw, tag, params, closing, selfClosing⟩

/-- A token and the offset behind it, or an error. -/
abbrev Scanned := Except ScanError (Token × Nat)

def scanComment (source : List Char) (start : Nat) : Option Scanned :=
  let body := start + commentOpen.length
  (slice? source ⟨body, byteLength source⟩).bind fun rest =>
    match seek closeAt (utf8 rest) with
    | none => some (.error ⟨.unclosedComment, ⟨start, byteLength source⟩⟩)
    | some (n, _) =>
      let stop := body + n + commentClose.length
      (token? source .comment ⟨start, stop⟩ none none false false).map fun t => .ok (t, stop)

/-- What comes of a region in markup that begins with `opening`. -/
def scanned (source : List Char) (start : Nat) (opening : List Char)
    (token? : Option Params → Marker → (stop : Nat) → Option Token) : RegionEnd → Option Scanned
  | .ended params marker stop => (token? params marker stop).map fun t => .ok (t, stop)
  | .underflow pos => some (.error ⟨.bracketUnderflow, ⟨pos, pos + 1⟩⟩)
  | .ranOut => some (.error ⟨.unclosedTag (String.ofList opening), ⟨start, byteLength source⟩⟩)

/-- The region right behind a name. An end marker there leaves it without a fragment. -/
def scanRegionOfName (source : List Char) (pos : Nat) (bs : List UInt8) : Option RegionEnd :=
  match Enclosure.tag.marker? (latin bs) with
  | some (marker, _) => some (.ended none marker (pos + marker.text.length))
  | none => scanRegion source .tag pos ⟨[], none, none, 0⟩ bs

def scanTag (source : List Char) (opener : TagOpener) (start : Nat) : Option Scanned :=
  let nameStart := start + opener.text.length
  let bs := (utf8 source).drop nameStart
  let nameLength := ((seek nameStopAt bs).map Prod.fst).getD bs.length
  let stop := nameStart + nameLength
  let rest := (utf8 source).drop stop
  (slice? source ⟨nameStart, stop⟩).bind fun name =>
    (scanRegionOfName source stop rest).bind (scanned source start (opener.text ++ name) fun params marker stop =>
      token? source (if opener.isMacro then .macroTag else .directive) ⟨start, stop⟩ (some (String.ofList name)) params
        opener.closing (marker == .selfClose))

def scanInterpolation (source : List Char) (start : Nat) : Option Scanned :=
  let pos := start + interpolationOpen.length
  (scanRegion source .interpolation pos ⟨[], none, none, 0⟩ ((utf8 source).drop pos)).bind
    (scanned source start interpolationOpen fun params _ stop =>
      token? source .interpolation ⟨start, stop⟩ none params false false)

def scanMarkup (source : List Char) : Opener → (start : Nat) → Option Scanned
  | .comment, start => scanComment source start
  | .tag opener, start => scanTag source opener start
  | .interpolation, start => scanInterpolation source start

def text? (source : List Char) (span : Span) : Option Token :=
  token? source .text span none none false false

/-- The tokens from some text on, with the markup behind it and what is scanned from there. -/
def scannedOn (texts : List Token) (scan : (pos : Nat) → Option (Except ScanError (List Token))) :
    Scanned → Option (Except ScanError (List Token))
  | .error e => some (.error e)
  | .ok (t, stop) => (scan stop).map fun r => r.map fun ts => texts ++ t :: ts

/-- The tokens from an offset on, at most `n` times text and markup. -/
def scanTokens (source : List Char) : (n : Nat) → (pos : Nat) → Option (Except ScanError (List Token))
  | 0, _ => none
  | n + 1, pos =>
    let bs := (utf8 source).drop pos
    if bs.isEmpty then some (.ok [])
    else
      match seek openerAt bs with
      | none =>
        (text? source ⟨pos, byteLength source⟩).bind fun t =>
          (scanTokens source n (byteLength source)).map fun r => r.map fun ts => t :: ts
      | some (length, opener) =>
        let texts? := if length = 0 then some [] else (text? source ⟨pos, pos + length⟩).map fun t => [t]
        texts?.bind fun texts =>
          (scanMarkup source opener (pos + length)).bind (scannedOn texts fun pos => scanTokens source n pos)

/-- The tokens of a template. Every token has a byte, so it has no more of them than bytes. -/
def tokenize? (source : String) : Option (Except ScanError (List Token)) :=
  scanTokens source.toList (byteLength source.toList + 1) 0

/-! ### Delimiters in bytes -/

theorem not_of_not_isAscii {p : Char → Bool} (hp : ∀ c, p c = true → isAscii c = true) {d : Char}
    (hd : isAscii d = false) : p d = false := by
  cases h : p d with
  | false => rfl
  | true => rw [hp d h] at hd; cases hd

theorem isAscii_of_isTagBlank (c : Char) (h : isTagBlank c = true) : isAscii c = true := by
  simp only [isTagBlank, Bool.or_eq_true, beq_iff_eq] at h
  rcases h with (((rfl | rfl) | rfl) | rfl) | rfl <;> rfl

theorem isAscii_of_isQuote (c : Char) (h : isQuote c = true) : isAscii c = true := by
  simp only [isQuote, Bool.or_eq_true, beq_iff_eq] at h
  rcases h with rfl | rfl <;> rfl

theorem isAscii_of_opensBracket (c : Char) (h : opensBracket c = true) : isAscii c = true := by
  simp only [opensBracket, Bool.or_eq_true, beq_iff_eq] at h
  rcases h with (rfl | rfl) | rfl <;> rfl

theorem isAscii_of_closesBracket (c : Char) (h : closesBracket c = true) : isAscii c = true := by
  simp only [closesBracket, Bool.or_eq_true, beq_iff_eq] at h
  rcases h with (rfl | rfl) | rfl <;> rfl

private theorem marker_ascii (e : Enclosure) : ∀ m ∈ e.markers, m.text ≠ [] ∧ ∀ c ∈ m.text, isAscii c = true := by
  simp only [← List.all_eq_true]
  cases e <;> decide

private theorem opener_ascii : ∀ o ∈ Opener.all, o.text ≠ [] ∧ ∀ c ∈ o.text, isAscii c = true := by
  simp only [← List.all_eq_true]
  decide

theorem marker?_latin_utf8 (e : Enclosure) (cs : List Char) :
    e.marker? (latin (utf8 cs)) = (e.marker? cs).map fun (m, rest) => (m, latin (utf8 rest)) :=
  Text.firstMatch_latin_utf8 (fun m hm => (marker_ascii e m hm).2) cs

theorem marker?_eq_none {e : Enclosure} {d : Char} (hd : isAscii d = false) (ds : List Char) :
    e.marker? (d :: ds) = none :=
  Text.firstMatch_eq_none_of_not_isAscii (marker_ascii e) hd ds

theorem stopsAt_eq_false {e : Enclosure} {d : Char} (hd : isAscii d = false) (ds : List Char) :
    e.stopsAt d ds = false := by
  rw [Enclosure.stopsAt, not_of_not_isAscii isAscii_of_isTagBlank hd, marker?_eq_none hd]
  rfl

/-! ### Searching -/

/-- The text in front of the nearest place at which something is found, and what is found there. -/
def seekText {α : Type} (found : List Char → Option α) : List Char → Option (List Char × α)
  | [] => none
  | c :: cs =>
    match found (c :: cs) with
    | some a => some ([], a)
    | none => (seekText found cs).map fun (front, a) => (c :: front, a)

/-- What is found reads bytes as it reads characters, and is not found at a byte beyond ASCII. -/
structure Detects {α : Type} (found : List Char → Option α) : Prop where
  latin : ∀ cs, found (latin (utf8 cs)) = found cs
  wide : ∀ d ds, isAscii d = false → found (d :: ds) = none

theorem seek_wide {α : Type} {found : List Char → Option α} (h : Detects found) {ws : List UInt8}
    (hws : ∀ b ∈ ws, isAscii (Char.ofUInt8 b) = false) (bs : List UInt8) :
    seek found (ws ++ bs) = (seek found bs).map fun (n, a) => (ws.length + n, a) := by
  induction ws with
  | nil => simp
  | cons b ws ih =>
    obtain ⟨hb, hws⟩ := List.forall_mem_cons.mp hws
    rw [List.cons_append, seek, latin, List.map_cons, h.wide _ _ hb, ih hws]
    cases seek found bs with
    | none => rfl
    | some r => simp [Nat.add_right_comm]

/-- Searching the bytes of a text finds the place that searching the text does. -/
theorem seek_utf8 {α : Type} {found : List Char → Option α} (h : Detects found) (cs : List Char) :
    seek found (utf8 cs) = (seekText found cs).map fun (front, a) => (byteLength front, a) := by
  induction cs with
  | nil => rfl
  | cons c cs ih =>
    cases hc : isAscii c with
    | true =>
      have hlatin := h.latin (c :: cs)
      rw [Text.utf8_cons, Text.utf8EncodeChar_of_isAscii hc, List.singleton_append] at hlatin ⊢
      rw [seek, seekText, hlatin, ih]
      cases found (c :: cs) with
      | some a => rfl
      | none => cases seekText found cs <;> simp [Text.utf8Size_of_isAscii hc, Nat.add_comm]
    | false =>
      rw [Text.utf8_cons, seek_wide h fun b hb => Text.isAscii_of_mem_utf8EncodeChar hc hb, seekText, h.wide _ _ hc, ih]
      cases seekText found cs <;> simp [String.length_utf8EncodeChar]

theorem detects_closeAt : Detects closeAt where
  latin cs := by
    rw [closeAt, closeAt, Text.isPrefixOf?_latin_utf8 (List.all_eq_true.mp rfl), Option.map_map, Function.comp_def]
  wide d ds hd := by
    rw [closeAt, commentClose, Text.isPrefixOf?_eq_none_of_not_isAscii rfl hd]
    rfl

/-- Only `<` and `$` begin an opening symbol. -/
theorem openerAt_eq (cs : List Char) : openerAt cs = (opener? cs).map Prod.fst := by
  unfold openerAt
  split
  · rfl
  · next hne =>
    cases h : opener? cs with
    | none => rfl
    | some r =>
      obtain ⟨o, rest⟩ := r
      rw [append_of_opener? h] at hne
      refine absurd ?_ hne
      rcases o with _ | ⟨_ | _, _ | _⟩ | _ <;> simp [Opener.text, TagOpener.text, commentOpen, interpolationOpen]

theorem detects_openerAt : Detects openerAt where
  latin cs := by
    have hopener := Text.firstMatch_latin_utf8 (fun o ho => (opener_ascii o ho).2) cs
    rw [openerAt_eq, openerAt_eq, opener?, hopener, Option.map_map]
    rfl
  wide d ds hd := by
    rw [openerAt_eq, opener?, Text.firstMatch_eq_none_of_not_isAscii opener_ascii hd]
    rfl

theorem detects_nameStopAt : Detects nameStopAt where
  latin cs := by
    cases cs with
    | nil => rfl
    | cons c cs =>
      cases hc : isAscii c with
      | true =>
        have hmarker := marker?_latin_utf8 .tag (c :: cs)
        rw [Text.utf8_cons, Text.utf8EncodeChar_of_isAscii hc, List.singleton_append, latin, List.map_cons,
          Text.ofUInt8_ofNat_toNat hc] at hmarker ⊢
        rw [nameStopAt, nameStopAt, Enclosure.stopsAt, Enclosure.stopsAt, hmarker, Option.isSome_map]
      | false =>
        obtain ⟨b, bs, hbs⟩ := List.exists_cons_of_ne_nil (String.utf8EncodeChar_ne_nil (c := c))
        have hb := Text.isAscii_of_mem_utf8EncodeChar hc (b := b) (by simp [hbs])
        rw [Text.utf8_cons, hbs, nameStopAt, stopsAt_eq_false hc]
        exact if_neg (by rw [stopsAt_eq_false hb]; exact Bool.false_ne_true)
  wide d ds hd := by
    rw [nameStopAt, stopsAt_eq_false hd]
    rfl

/-! ### What is searched for in a text -/

theorem seekText_openerAt (cs : List Char) :
    seekText openerAt cs = (openerAt (textRun cs).2).map fun o => ((textRun cs).1, o) := by
  induction cs with
  | nil => rfl
  | cons c cs ih =>
    rw [seekText, textRun]
    cases ho : opener? (c :: cs) with
    | some r => simp [openerAt_eq, ho]
    | none =>
      rw [openerAt_eq, ho]
      dsimp only [Option.map_none, Option.isSome_none]
      rw [ih, if_neg Bool.false_ne_true, Option.map_map]
      rfl

theorem seekText_closeAt (cs : List Char) : seekText closeAt cs = (commentBody? cs).map fun (body, _) => (body, ()) := by
  induction cs with
  | nil => rfl
  | cons c cs ih =>
    rw [seekText, commentBody?, closeAt]
    cases commentClose.isPrefixOf? (c :: cs) with
    | some rest => rfl
    | none => simp [ih, Function.comp_def]

theorem seekText_nameStopAt (cs : List Char) :
    ((seekText nameStopAt cs).map Prod.fst).getD cs = (nameRun cs).1 := by
  induction cs with
  | nil => rfl
  | cons c cs ih =>
    rw [seekText, nameRun, nameStopAt]
    by_cases hstop : Enclosure.tag.stopsAt c cs = true
    · rw [if_pos hstop, if_pos hstop]
      rfl
    · rw [if_neg hstop, if_neg hstop, ← ih]
      cases seekText nameStopAt cs <;> rfl

end Bytewise

end TemplateSyntax.Markup
