import TemplateSyntax.Proofs.Markup.Bytewise.Scanner

/-!
# Regions byte by byte

A fragment is read byte by byte with the nesting of its characters (`resume_utf8`): the bytes of a character beyond
ASCII are neither quotes nor brackets nor blanks, and if a backslash skips the first of them, those behind it are still
none. Where a fragment opens and where it is cut out, a character begins (`scanRegion_eq`).
-/

namespace TemplateSyntax.Markup

open Text (isTagBlank byteLength utf8 latin slice? isAscii)

namespace Bytewise

variable {source : List Char} {e : Enclosure}

/-! ### Bytes of a fragment -/

theorem scanRegion_quoted {fragments : List Fragment} {start : Option Nat} {q : Char} {depth : Nat} (pos : Nat)
    (b : UInt8) (bs : List UInt8) :
    scanRegion source e pos ⟨fragments, start, some q, depth⟩ (b :: bs) =
      if Char.ofUInt8 b = '\\' then
        match bs with
        | [] => some .ranOut
        | _ :: bs => scanRegion source e (pos + 2) ⟨fragments, start, some q, depth⟩ bs
      else if Char.ofUInt8 b = q then scanRegion source e (pos + 1) ⟨fragments, start, none, depth⟩ bs
      else scanRegion source e (pos + 1) ⟨fragments, start, some q, depth⟩ bs := by
  rw [scanRegion.eq_def]
  dsimp only
  split
  · rfl
  · split <;> rfl

theorem scanRegion_plain {fragments : List Fragment} {start : Option Nat} {depth : Nat} (pos : Nat) (b : UInt8)
    (bs : List UInt8) (hmarker : (if depth = 0 then e.marker? (latin (b :: bs)) else none) = none)
    (hblank : ¬(depth = 0 ∧ isTagBlank (Char.ofUInt8 b) = true)) :
    scanRegion source e pos ⟨fragments, start, none, depth⟩ (b :: bs) =
      match RegionState.read (Char.ofUInt8 b) ⟨fragments, start, none, depth⟩ with
      | none => some (.underflow pos)
      | some s => scanRegion source e (pos + 1) { s with start := some (s.start.getD pos) } bs := by
  rw [scanRegion.eq_def]
  dsimp only
  rw [hmarker]
  exact if_neg hblank

/-- Bytes beyond ASCII only move the scanner on in a fragment. -/
theorem scanRegion_wide {s : RegionState} (hstart : s.start.isSome = true) (hquote : ∀ q ∈ s.quote, isQuote q = true)
    {ws : List UInt8} (hws : ∀ b ∈ ws, isAscii (Char.ofUInt8 b) = false) (pos : Nat) (bs : List UInt8) :
    scanRegion source e pos s (ws ++ bs) = scanRegion source e (pos + ws.length) s bs := by
  induction ws generalizing pos with
  | nil => rfl
  | cons b ws ih =>
    obtain ⟨hb, hws⟩ := List.forall_mem_cons.mp hws
    have hne {c : Char} (hc : isAscii c = true) : Char.ofUInt8 b ≠ c := by
      rintro rfl
      rw [hc] at hb
      cases hb
    rw [List.length_cons, Nat.add_comm ws.length, ← Nat.add_assoc, ← ih hws, List.cons_append]
    obtain ⟨fragments, start, quote, depth⟩ := s
    obtain ⟨f, rfl⟩ := Option.isSome_iff_exists.mp hstart
    cases quote with
    | some q => rw [scanRegion_quoted, if_neg (hne rfl), if_neg (hne (isAscii_of_isQuote q (hquote q rfl)))]
    | none =>
      have hmarker : (if depth = 0 then e.marker? (latin (b :: (ws ++ bs))) else none) = none := by
        rw [latin, List.map_cons, marker?_eq_none hb, ite_self]
      have hblank : ¬(depth = 0 ∧ isTagBlank (Char.ofUInt8 b) = true) := by
        rw [not_of_not_isAscii isAscii_of_isTagBlank hb]
        simp
      rw [scanRegion_plain pos b _ hmarker hblank, RegionState.read, not_of_not_isAscii isAscii_of_isQuote hb,
        not_of_not_isAscii isAscii_of_opensBracket hb, not_of_not_isAscii isAscii_of_closesBracket hb]
      rfl

/-- The scanner in a fragment that starts at `start`, with the nesting of the bytes read so far. Behind a backslash it
skips a byte. -/
def resume (source : List Char) (e : Enclosure) (fragments : List Fragment) (start pos : Nat) :
    Nesting → List UInt8 → Option RegionEnd
  | .plain depth, bs => scanRegion source e pos ⟨fragments, some start, none, depth⟩ bs
  | .quoted q depth, bs => scanRegion source e pos ⟨fragments, some start, some q, depth⟩ bs
  | .escaped _ _, [] => some .ranOut
  | .escaped q depth, _ :: bs => scanRegion source e (pos + 1) ⟨fragments, some start, some q, depth⟩ bs

/-- A character beyond ASCII in a fragment. -/
private theorem resume_wide {fragments : List Fragment} {start : Nat} {nesting : Nesting}
    (hquoted : WellQuoted nesting) {c : Char} (hc : isAscii c = false) (cs : List Char) (pos : Nat) :
    ∃ nesting', nesting.step c = some nesting' ∧
      resume source e fragments start pos nesting (utf8 (c :: cs)) =
        resume source e fragments start (pos + c.utf8Size) nesting' (utf8 cs) := by
  have hws : ∀ b ∈ String.utf8EncodeChar c, isAscii (Char.ofUInt8 b) = false := fun b hb =>
    Text.isAscii_of_mem_utf8EncodeChar hc hb
  have hlength := String.length_utf8EncodeChar c
  have hne {a : Char} (ha : isAscii a = true) : c ≠ a := by
    rintro rfl
    rw [ha] at hc
    cases hc
  rw [Text.utf8_cons, ← hlength]
  cases nesting with
  | plain depth =>
    refine ⟨.plain depth, ?_, scanRegion_wide rfl (by simp) hws pos _⟩
    simp [Nesting.step, not_of_not_isAscii isAscii_of_isQuote hc, not_of_not_isAscii isAscii_of_opensBracket hc,
      not_of_not_isAscii isAscii_of_closesBracket hc]
  | quoted q depth =>
    have hq : isQuote q = true := hquoted
    refine ⟨.quoted q depth, ?_, scanRegion_wide rfl (by simpa using hq) hws pos _⟩
    rw [Nesting.step.eq_def]
    dsimp only
    rw [if_neg (hne rfl), if_neg (hne (isAscii_of_isQuote q hq))]
  | escaped q depth =>
    have hq : isQuote q = true := hquoted
    refine ⟨.quoted q depth, rfl, ?_⟩
    -- the backslash takes the first byte of the character, and the others are no delimiters
    obtain ⟨b, bs, hbs⟩ := List.exists_cons_of_ne_nil (String.utf8EncodeChar_ne_nil (c := c))
    rw [hbs] at hws ⊢
    rw [List.length_cons, Nat.add_comm bs.length, ← Nat.add_assoc]
    exact scanRegion_wide rfl (by simpa using hq) (List.forall_mem_cons.mp hws).2 (pos + 1) _

/-- An ASCII character in a fragment. -/
private theorem resume_ascii {fragments : List Fragment} {start : Nat} {nesting : Nesting} {c : Char} {cs : List Char}
    (hc : isAscii c = true) (hstops : (nesting = .plain 0 && e.stopsAt c cs) = false) (pos : Nat) :
    resume source e fragments start pos nesting (utf8 (c :: cs)) =
      match nesting.step c with
      | none => some (.underflow pos)
      | some nesting => resume source e fragments start (pos + c.utf8Size) nesting (utf8 cs) := by
  have hbyte := Text.ofUInt8_ofNat_toNat hc
  have hmarker := marker?_latin_utf8 e (c :: cs)
  rw [Text.utf8Size_of_isAscii hc]
  rw [Text.utf8_cons, Text.utf8EncodeChar_of_isAscii hc, List.singleton_append] at hmarker ⊢
  cases nesting with
  | escaped q depth => rfl
  | quoted q depth =>
    rw [resume, scanRegion_quoted, hbyte, Nesting.step]
    by_cases hescape : c = '\\'
    · rw [if_pos hescape, if_pos hescape]
      cases utf8 cs <;> rfl
    · rw [if_neg hescape, if_neg hescape]
      by_cases hq : c = q
      · rw [if_pos hq, if_pos hq]
        rfl
      · rw [if_neg hq, if_neg hq]
        rfl
  | plain depth =>
    have hnone : (if depth = 0 then e.marker? (latin (UInt8.ofNat c.toNat :: utf8 cs)) else none) = none ∧
        ¬(depth = 0 ∧ isTagBlank (Char.ofUInt8 (UInt8.ofNat c.toNat)) = true) := by
      by_cases hdepth : depth = 0
      · subst hdepth
        rw [decide_eq_true rfl, Bool.true_and, Enclosure.stopsAt, Bool.or_eq_false_iff] at hstops
        have hnone : e.marker? (c :: cs) = none := by simpa using hstops.2
        rw [if_pos rfl, hmarker, hnone, hbyte, hstops.1]
        simp
      · rw [if_neg hdepth]
        exact ⟨rfl, fun h => hdepth h.1⟩
    rw [resume, scanRegion_plain pos _ _ hnone.1 hnone.2, hbyte, RegionState.read, Nesting.step.eq_def]
    dsimp only
    cases isQuote c with
    | true => rfl
    | false =>
      cases opensBracket c with
      | true => rfl
      | false =>
        cases closesBracket c with
        | false => rfl
        | true => cases depth <;> rfl

/-- The bytes of a fragment are read as its characters are. Behind it the scanner is at a stop, with the fragment open. -/
theorem resume_utf8 {fragments : List Fragment} {start : Nat} {nesting : Nesting} (hquoted : WellQuoted nesting)
    (cs : List Char) (pos : Nat) :
    resume source e fragments start pos nesting (utf8 cs) =
      match fragment e nesting cs with
      | .ended text rest => scanRegion source e (pos + byteLength text) ⟨fragments, some start, none, 0⟩ (utf8 rest)
      | .underflow before => some (.underflow (pos + byteLength before))
      | .ranOut => some .ranOut := by
  induction cs generalizing nesting pos with
  | nil => cases nesting <;> simp [resume, fragment, scanRegion]
  | cons c cs ih =>
    rw [fragment]
    cases hstops : (nesting = .plain 0 && e.stopsAt c cs) with
    | true =>
      rw [Bool.and_eq_true, decide_eq_true_eq] at hstops
      rw [hstops.1]
      rfl
    | false =>
      rw [if_neg Bool.false_ne_true]
      have hcons : resume source e fragments start pos nesting (utf8 (c :: cs)) =
          match nesting.step c with
          | none => some (.underflow pos)
          | some nesting => resume source e fragments start (pos + c.utf8Size) nesting (utf8 cs) := by
        cases hc : isAscii c with
        | true => exact resume_ascii hc hstops pos
        | false =>
          obtain ⟨nesting', hstep, hresume⟩ := resume_wide hquoted hc cs pos
          rw [hstep, hresume]
      rw [hcons]
      cases hstep : nesting.step c with
      | none => rfl
      | some nesting' =>
        dsimp only
        rw [ih (wellQuoted_of_step hstep hquoted)]
        cases fragment e nesting' cs <;> simp [Cut.cons, Nat.add_assoc]

/-! ### Where fragments begin and end -/

/-- The first byte of a character is a blank if the character is. -/
theorem exists_first_byte (c : Char) (cs : List Char) :
    ∃ b bs, utf8 (c :: cs) = b :: bs ∧ isTagBlank (Char.ofUInt8 b) = isTagBlank c := by
  cases hc : isAscii c with
  | true =>
    rw [Text.utf8_cons, Text.utf8EncodeChar_of_isAscii hc]
    exact ⟨_, _, rfl, by rw [Text.ofUInt8_ofNat_toNat hc]⟩
  | false =>
    obtain ⟨b, bs, hbs⟩ := List.exists_cons_of_ne_nil (String.utf8EncodeChar_ne_nil (c := c))
    have hb := Text.isAscii_of_mem_utf8EncodeChar hc (b := b) (by simp [hbs])
    refine ⟨b, bs ++ utf8 cs, by rw [Text.utf8_cons, hbs, List.cons_append], ?_⟩
    rw [not_of_not_isAscii isAscii_of_isTagBlank hb, not_of_not_isAscii isAscii_of_isTagBlank hc]

theorem scanRegion_marker {fragments : List Fragment} {start : Option Nat} {cs rest : List Char} {marker : Marker}
    (h : e.marker? cs = some (marker, rest)) (pos : Nat) :
    scanRegion source e pos ⟨fragments, start, none, 0⟩ (utf8 cs) =
      (RegionState.close source pos ⟨fragments, start, none, 0⟩).bind fun s =>
        (paramsFrom? source s.fragments).map fun params => .ended params marker (pos + marker.text.length) := by
  have hlatin := marker?_latin_utf8 e cs
  cases cs with
  | nil => rw [Enclosure.marker?_nil] at h; cases h
  | cons c cs =>
    obtain ⟨b, bs, hbs, -⟩ := exists_first_byte c cs
    rw [hbs, h] at hlatin
    rw [hbs, scanRegion.eq_def]
    dsimp only
    rw [if_pos rfl, hlatin]
    rfl

theorem scanRegion_blank {fragments : List Fragment} {start : Option Nat} {c : Char} (hc : isTagBlank c = true)
    (cs : List Char) (pos : Nat) :
    scanRegion source e pos ⟨fragments, start, none, 0⟩ (utf8 (c :: cs)) =
      (RegionState.close source pos ⟨fragments, start, none, 0⟩).bind fun s =>
        scanRegion source e (pos + 1) s (utf8 cs) := by
  have hascii := isAscii_of_isTagBlank c hc
  have hlatin := marker?_latin_utf8 e (c :: cs)
  rw [Text.utf8_cons, Text.utf8EncodeChar_of_isAscii hascii, List.singleton_append] at hlatin ⊢
  rw [scanRegion.eq_def]
  dsimp only
  rw [if_pos rfl, hlatin, marker?_of_isTagBlank hc, Text.ofUInt8_ofNat_toNat hascii]
  dsimp only [Option.map_none]
  rw [if_pos ⟨rfl, hc⟩]

/-- Before a stop the open fragment is cut out. -/
theorem scanRegion_close {fragments : List Fragment} {start pos : Nat} {text : List Char}
    (htext : slice? source ⟨start, pos⟩ = some text) {c : Char} {cs : List Char} (hstops : e.stopsAt c cs = true) :
    scanRegion source e pos ⟨fragments, some start, none, 0⟩ (utf8 (c :: cs)) =
      scanRegion source e pos ⟨fragments ++ [⟨String.ofList text, ⟨start, pos⟩⟩], none, none, 0⟩ (utf8 (c :: cs)) := by
  have hclose : RegionState.close source pos ⟨fragments, some start, none, 0⟩ =
      RegionState.close source pos ⟨fragments ++ [⟨String.ofList text, ⟨start, pos⟩⟩], none, none, 0⟩ := by
    simp [RegionState.close, htext]
  rw [Enclosure.stopsAt, Bool.or_eq_true, Option.isSome_iff_exists] at hstops
  rcases hstops with hblank | ⟨⟨marker, rest⟩, hmarker⟩
  · rw [scanRegion_blank hblank, scanRegion_blank hblank, hclose]
  · rw [scanRegion_marker hmarker, scanRegion_marker hmarker, hclose]

/-- Anywhere else a fragment begins. -/
theorem scanRegion_open {fragments : List Fragment} {c : Char} {cs : List Char} (hstops : e.stopsAt c cs = false)
    (pos : Nat) :
    scanRegion source e pos ⟨fragments, none, none, 0⟩ (utf8 (c :: cs)) =
      resume source e fragments pos pos (.plain 0) (utf8 (c :: cs)) := by
  rw [Enclosure.stopsAt, Bool.or_eq_false_iff] at hstops
  have hlatin := marker?_latin_utf8 e (c :: cs)
  obtain ⟨b, bs, hbs, hblank⟩ := exists_first_byte c cs
  have hmarker : (if 0 = 0 then e.marker? (latin (b :: bs)) else none) = none := by
    rw [hbs] at hlatin
    rw [if_pos rfl, hlatin, Option.map_eq_none_iff]
    simpa using hstops.2
  have hblank : ¬(0 = 0 ∧ isTagBlank (Char.ofUInt8 b) = true) := by
    rw [hblank, hstops.1]
    simp
  rw [hbs, resume, scanRegion_plain pos b bs hmarker hblank, scanRegion_plain pos b bs hmarker hblank,
    RegionState.read, RegionState.read]
  dsimp only
  cases isQuote (Char.ofUInt8 b) with
  | true => rfl
  | false =>
    cases opensBracket (Char.ofUInt8 b) with
    | true => rfl
    | false => cases closesBracket (Char.ofUInt8 b) <;> rfl

theorem scanRegion_blanks {fragments : List Fragment} {blanks : List Char} (h : ∀ c ∈ blanks, isTagBlank c = true)
    (cs : List Char) (pos : Nat) :
    scanRegion source e pos ⟨fragments, none, none, 0⟩ (utf8 (blanks ++ cs)) =
      scanRegion source e (pos + byteLength blanks) ⟨fragments, none, none, 0⟩ (utf8 cs) := by
  induction blanks generalizing pos with
  | nil => rfl
  | cons c blanks ih =>
    obtain ⟨hc, h⟩ := List.forall_mem_cons.mp h
    rw [List.cons_append, scanRegion_blank hc, RegionState.close]
    dsimp only [Option.bind_some]
    rw [ih h, Text.byteLength_cons, Text.utf8Size_of_isAscii (isAscii_of_isTagBlank c hc), Nat.add_assoc]

/-! ### From fragment to fragment -/

theorem byteLength_marker (m : Marker) : byteLength m.text = m.text.length := by
  cases m <;> rfl

/-- What comes of a region read by characters, in bytes. -/
def regionEnd (source : List Char) (fragments : List Fragment) (pos : Nat) : RegionCut → Option RegionEnd
  | .ended r _ =>
    (paramsFrom? source (fragments ++ fragmentsAt pos r.pieces)).map fun params =>
      .ended params r.marker (pos + byteLength r.chars)
  | .underflow before => some (.underflow (pos + byteLength before))
  | .ranOut => some .ranOut

theorem scanRegion_utf8 (before cs : List Char) (hsource : source = before ++ cs) (fragments : List Fragment) :
    scanRegion source e (byteLength before) ⟨fragments, none, none, 0⟩ (utf8 cs) =
      regionEnd source fragments (byteLength before) (region e cs) := by
  induction hn : cs.length using Nat.strongRecOn generalizing before cs fragments with
  | ind n ih =>
    have hsplit := List.takeWhile_append_dropWhile (p := isTagBlank) (l := cs)
    have hblanks : ∀ c ∈ cs.takeWhile isTagBlank, isTagBlank c = true := fun c hc =>
      List.all_eq_true.mp List.all_takeWhile c hc
    have hfirst := List.head?_dropWhile_not isTagBlank cs
    rw [region_eq]
    generalize cs.takeWhile isTagBlank = blanks at *
    generalize cs.dropWhile isTagBlank = ds at *
    subst hsplit
    rw [scanRegion_blanks hblanks]
    cases hmarker : e.marker? ds with
    | some r =>
      obtain ⟨marker, rest⟩ := r
      rw [scanRegion_marker hmarker, RegionState.close]
      simp [regionEnd, fragmentsAt, Region.chars, byteLength_marker, Nat.add_assoc]
    | none =>
      dsimp only
      cases ds with
      | nil => rfl
      | cons d ds =>
        have hstops : e.stopsAt d ds = false := by
          rw [Enclosure.stopsAt, show isTagBlank d = false from hfirst, hmarker]
          rfl
        rw [scanRegion_open hstops, resume_utf8 (show WellQuoted (.plain 0) from trivial)]
        cases hfragment : fragment e (.plain 0) (d :: ds) with
        | ranOut => rfl
        | underflow bytes => simp [regionEnd, Nat.add_assoc]
        | ended text rest =>
          have hchars := append_of_fragment hfragment
          have hne := fragment_ne_nil hstops hfragment
          obtain ⟨c, cs, rfl, hstop⟩ := stopsAt_of_fragment hfragment
          have hslice : slice? source ⟨byteLength before + byteLength blanks,
              byteLength before + byteLength blanks + byteLength text⟩ = some text := by
            rw [Text.slice?_eq_some_iff, hsource, hchars]
            exact ⟨before ++ blanks, c :: cs, by simp, by simp⟩
          have hlength : (c :: cs).length < n := by
            have hlt := congrArg List.length hchars
            have hpos := List.length_pos_iff.mpr hne
            rw [List.length_append] at hlt hn
            omega
          have hrest := ih (c :: cs).length hlength (before ++ blanks ++ text) (c :: cs) (by simp [hsource, hchars])
            (fragments ++ [⟨String.ofList text, ⟨byteLength before + byteLength blanks,
              byteLength before + byteLength blanks + byteLength text⟩⟩]) rfl
          rw [Text.byteLength_append, Text.byteLength_append] at hrest
          dsimp only
          rw [scanRegion_close hslice hstop, hrest]
          cases region e (c :: cs) <;>
            simp [regionEnd, RegionCut.cons, fragmentsAt, Region.chars, Nat.add_assoc]

theorem stop_of_getLast?_fragmentsAt {pieces : List (List Char × List Char)} {start : Nat} {f : Fragment}
    (hf : (fragmentsAt start pieces).getLast? = some f) : f.span.stop = start + byteLength (piecesText pieces) := by
  induction pieces generalizing start with
  | nil => cases hf
  | cons piece pieces ih =>
    obtain ⟨blanks, text⟩ := piece
    rw [piecesText_cons, Text.byteLength_append, Text.byteLength_append, ← Nat.add_assoc, ← Nat.add_assoc]
    cases pieces with
    | nil =>
      cases hf
      rfl
    | cons piece pieces => exact ih hf

/-- The parameters are cut out from the first fragment to the last. -/
theorem paramsFrom?_fragmentsAt {before after : List Char} {r : Region}
    (hsource : source = before ++ piecesText r.pieces ++ after) :
    paramsFrom? source (fragmentsAt (byteLength before) r.pieces) = some (r.params? (byteLength before)) := by
  obtain ⟨pieces, blanks, marker⟩ := r
  match pieces with
  | [] => rfl
  | (first, text) :: pieces =>
    obtain ⟨f, hlast⟩ : ∃ f, (fragmentsAt (byteLength before) ((first, text) :: pieces)).getLast? = some f :=
      ⟨_, List.getLast?_eq_some_getLast (List.cons_ne_nil _ _)⟩
    have hstop := stop_of_getLast?_fragmentsAt hlast
    rw [piecesText_cons, Text.byteLength_append, ← Nat.add_assoc] at hstop
    have hslice : slice? source ⟨byteLength before + byteLength first,
        byteLength before + byteLength first + byteLength (text ++ piecesText pieces)⟩ =
          some (text ++ piecesText pieces) := by
      rw [Text.slice?_eq_some_iff, hsource]
      exact ⟨before ++ first, after, by simp [piecesText], by simp⟩
    rw [paramsFrom?, hlast]
    simp only [fragmentsAt, List.head?_cons]
    rw [hstop, hslice]
    rfl

/-- A region right behind `before`. -/
theorem scanRegion_eq (before cs : List Char) (hsource : source = before ++ cs) :
    scanRegion source e (byteLength before) ⟨[], none, none, 0⟩ (utf8 cs) =
      some (match region e cs with
        | .ended r _ => .ended (r.params? (byteLength before)) r.marker (byteLength before + byteLength r.chars)
        | .underflow bytes => .underflow (byteLength before + byteLength bytes)
        | .ranOut => .ranOut) := by
  rw [scanRegion_utf8 before cs hsource]
  cases hregion : region e cs with
  | ended r rest =>
    have hchars : source = before ++ piecesText r.pieces ++ (r.blanks ++ r.marker.text ++ rest) := by
      rw [hsource, append_of_region hregion, Region.chars]
      simp [piecesText]
    rw [regionEnd, List.nil_append, paramsFrom?_fragmentsAt hchars]
    rfl
  | underflow bytes => rfl
  | ranOut => rfl

end Bytewise

end TemplateSyntax.Markup
