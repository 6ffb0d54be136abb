import TemplateSyntax.Proofs.Markup.Closing
import TemplateSyntax.Proofs.Markup.Separation

/-!
# The form of tags and interpolations

A tag is its opening symbol, its name and a region; an interpolation is its opening symbol and a region. A region is
fragments between blanks, and then an end marker. Which texts have such a form is said here without a reader, by what
stands outside brackets and strings. The scanner finds texts of that form only, and it finds them all (`tokens_formed`).
-/

namespace TemplateSyntax.Markup

open Text (isTagBlank byteLength)

variable {e : Enclosure} {nesting : Nesting} {cs rest : List Char}

/-! ### Stops -/

/-- No end marker starts the text. -/
def Unmarked (e : Enclosure) (cs : List Char) : Prop :=
  ∀ m ∈ e.markers, ¬ m.text <+: cs

/-- A blank or an end marker starts the text. -/
def Stops (e : Enclosure) (cs : List Char) : Prop :=
  ∃ c ds, cs = c :: ds ∧ e.stopsAt c ds = true

theorem marker?_eq_none_iff : e.marker? cs = none ↔ Unmarked e cs := by
  rw [Enclosure.marker?, Text.firstMatch, List.findSome?_eq_none_iff]
  simp only [Option.map_eq_none_iff, isPrefixOf?_eq_none_iff, Unmarked]

theorem stopsAt_eq_false_iff {c : Char} :
    e.stopsAt c cs = false ↔ isTagBlank c = false ∧ Unmarked e (c :: cs) := by
  rw [Enclosure.stopsAt, Bool.or_eq_false_iff, Option.isSome_eq_false_iff, Option.isNone_iff_eq_none, marker?_eq_none_iff]

theorem unmarked_of_isTagBlank {c : Char} (hc : isTagBlank c = true) (cs : List Char) : Unmarked e (c :: cs) :=
  marker?_eq_none_iff.mp (marker?_of_isTagBlank hc cs)

theorem stops_of_isTagBlank {c : Char} (hc : isTagBlank c = true) (cs : List Char) : Stops e (c :: cs) :=
  ⟨c, cs, rfl, by rw [Enclosure.stopsAt, hc, Bool.true_or]⟩

theorem Unmarked.of_append (h : Unmarked e (cs ++ rest)) : Unmarked e cs :=
  fun m hm hstarts => h m hm (hstarts.trans (List.prefix_append cs rest))

/-- What follows the end marker does not make one. -/
theorem Unmarked.append {c : Char} (h : Unmarked e (c :: cs)) (hdecisive : Decisive (c :: cs)) (rest : List Char) :
    Unmarked e (c :: (cs ++ rest)) := by
  cases hc : isTagBlank c with
  | true => exact unmarked_of_isTagBlank hc _
  | false =>
    have hgoes : e.stopsAt c cs = false := stopsAt_eq_false_iff.mpr ⟨hc, h⟩
    rw [← hdecisive.stopsAt_append rest] at hgoes
    exact (stopsAt_eq_false_iff.mp hgoes).2

theorem stops_marker {m : Marker} (hm : m ∈ e.markers) (rest : List Char) : Stops e (m.text ++ rest) := by
  obtain ⟨c, cs, hcs⟩ := List.exists_cons_of_ne_nil (decisive_marker m rest).1
  refine ⟨c, cs, hcs, ?_⟩
  rw [Enclosure.stopsAt, ← hcs, marker?_append hm]
  simp

/-- An occurrence in two texts side by side is one in the first or one in the second. -/
theorem append_eq_append_cons {as bs pre post : List Char} {c : Char} (h : as ++ bs = pre ++ c :: post) :
    (∃ mid, as = pre ++ c :: mid ∧ post = mid ++ bs) ∨ ∃ mid, pre = as ++ mid ∧ bs = mid ++ c :: post := by
  obtain ⟨mid, rfl, hbs⟩ | ⟨mid, rfl, hpost⟩ := List.append_eq_append_iff.mp h
  · exact .inr ⟨mid, rfl, hbs⟩
  · cases mid with
    | nil => exact .inr ⟨[], by simp, hpost.symm⟩
    | cons d mid =>
      obtain ⟨rfl, rfl⟩ := List.cons.inj hpost
      exact .inl ⟨mid, rfl, rfl⟩

/-! ### Fragments -/

/-- A fragment closes what it opens. Outside brackets and strings it has no blank and no end marker. -/
structure IsFragment (e : Enclosure) (text : List Char) : Prop where
  nonempty : text ≠ []
  closes : Closes (.plain 0) text
  exposes : ∀ pre c post, text = pre ++ c :: post → Closes (.plain 0) pre →
    isTagBlank c = false ∧ Unmarked e (c :: post)

theorem closes_append_of_closes {front : List Char} (h : Closes nesting front) :
    Closes nesting (front ++ rest) ↔ Closes (.plain 0) rest := by
  induction front generalizing nesting with
  | nil =>
    cases h
    exact Iff.rfl
  | cons c front ih =>
    obtain ⟨nesting', hstep, h⟩ := h
    rw [List.cons_append, Closes, hstep]
    constructor
    · rintro ⟨_, hstep', hcloses⟩
      cases hstep'
      exact (ih h).mp hcloses
    · exact fun hcloses => ⟨nesting', rfl, (ih h).mpr hcloses⟩

/-- A fragment ends at the first stop outside brackets and strings. -/
theorem fragment_append_eq_ended_iff {text : List Char} :
    fragment e nesting (text ++ rest) = .ended text rest ↔
      Stops e rest ∧ Closes nesting text ∧
        ∀ pre c post, text = pre ++ c :: post → Closes nesting pre → e.stopsAt c (post ++ rest) = false := by
  induction text generalizing nesting with
  | nil =>
    cases rest with
    | nil => simp [fragment, Stops]
    | cons c rest => simp [fragment_cons_eq_ended_iff, Stops, Closes, and_comm]
  | cons c text ih =>
    rw [List.cons_append, fragment_cons_eq_ended_iff]
    constructor
    · rintro (⟨hnil, -⟩ | ⟨_, nesting', heq, hgoes, hstep, hfragment⟩)
      · cases hnil
      cases heq
      obtain ⟨hstops, hcloses, hexposes⟩ := ih.mp hfragment
      refine ⟨hstops, ⟨nesting', hstep, hcloses⟩, fun pre d post heq hpre => ?_⟩
      cases pre with
      | nil =>
        obtain ⟨rfl, rfl⟩ := List.cons.inj heq
        rw [← Bool.not_eq_true]
        exact fun hstop => hgoes ⟨hpre, hstop⟩
      | cons b pre =>
        obtain ⟨rfl, rfl⟩ := List.cons.inj heq
        obtain ⟨nesting'', hstep', hpre⟩ := hpre
        cases hstep.symm.trans hstep'
        exact hexposes pre d post rfl hpre
    · rintro ⟨hstops, ⟨nesting', hstep, hcloses⟩, hexposes⟩
      refine .inr ⟨text, nesting', rfl, ?_, hstep, ih.mpr ⟨hstops, hcloses, fun pre d post heq hpre => ?_⟩⟩
      · rintro ⟨hnesting, hstop⟩
        rw [hexposes [] c text rfl hnesting] at hstop
        cases hstop
      · exact hexposes (c :: pre) d post (by rw [heq, List.cons_append]) ⟨nesting', hstep, hpre⟩

/-! ### Regions -/

/-- What stands in front of the end marker. -/
def Region.inner (r : Region) : List Char :=
  piecesText r.pieces ++ r.blanks

theorem Region.chars_eq (r : Region) : r.chars = r.inner ++ r.marker.text := rfl

/-- A region is fragments between blanks, and its end marker is the first outside brackets and strings. -/
structure Region.Formed (e : Enclosure) (r : Region) : Prop where
  marker : r.marker ∈ e.markers
  blanks : ∀ c ∈ r.blanks, isTagBlank c = true
  pieces : ∀ p ∈ r.pieces, (∀ c ∈ p.1, isTagBlank c = true) ∧ IsFragment e p.2
  /-- Only the blanks in front of the first fragment can be missing. -/
  separated : ∀ p ∈ r.pieces.tail, p.1 ≠ []
  first : ∀ pre c post, r.inner = pre ++ c :: post → Closes (.plain 0) pre → Unmarked e (c :: (post ++ r.marker.text))

theorem Region.inner_cons (blanks text : List Char) (r : Region) :
    Region.inner { r with pieces := (blanks, text) :: r.pieces } = blanks ++ (text ++ r.inner) := by
  simp [inner, piecesText]

theorem Region.chars_cons (blanks text : List Char) (r : Region) (rest : List Char) :
    Region.chars { r with pieces := (blanks, text) :: r.pieces } ++ rest = blanks ++ (text ++ (r.chars ++ rest)) := by
  simp [chars]

/-- In front of the end marker none starts, whatever follows it. -/
theorem Region.Formed.unmarked {r : Region} (h : r.Formed e) {pre post : List Char} {c : Char}
    (hinner : r.inner = pre ++ c :: post) (hpre : Closes (.plain 0) pre) (rest : List Char) :
    Unmarked e (c :: (post ++ (r.marker.text ++ rest))) := by
  have hdecisive : Decisive (c :: (post ++ r.marker.text)) := by
    have hmarker : Decisive r.marker.text := List.append_nil r.marker.text ▸ decisive_marker r.marker []
    exact hmarker.append (c :: post)
  have hunmarked := (h.first pre c post hinner hpre).append hdecisive rest
  rwa [List.append_assoc] at hunmarked

/-- A region starts with a blank or with its end marker if its first fragment does not start it. -/
theorem Region.Formed.stops_iff {r : Region} (h : r.Formed e) (rest : List Char) :
    Stops e (r.chars ++ rest) ↔ ∀ p ∈ r.pieces.head?, p.1 ≠ [] := by
  obtain ⟨pieces, blanks, marker⟩ := r
  cases pieces with
  | nil =>
    refine iff_of_true ?_ (by simp)
    cases blanks with
    | nil => exact stops_marker h.marker rest
    | cons c blanks => exact stops_of_isTagBlank (h.blanks c (List.mem_cons_self ..)) _
  | cons p pieces =>
    obtain ⟨leading, text⟩ := p
    obtain ⟨hleading, htext⟩ := h.pieces _ (List.mem_cons_self ..)
    cases leading with
    | cons c leading =>
      exact iff_of_true (stops_of_isTagBlank (hleading c (List.mem_cons_self ..)) _) (by simp)
    | nil =>
      refine iff_of_false ?_ (by simp)
      rintro ⟨c, ds, hcs, hstop⟩
      obtain ⟨d, text, rfl⟩ := List.exists_cons_of_ne_nil htext.nonempty
      rw [Region.chars_eq, List.append_assoc] at hcs
      obtain ⟨rfl, rfl⟩ := List.cons.inj hcs
      have hopen : Closes (.plain 0) [] := rfl
      have hgoes : e.stopsAt d _ = false :=
        stopsAt_eq_false_iff.mpr ⟨(htext.exposes [] d text rfl hopen).1, h.unmarked rfl hopen rest⟩
      cases hgoes.symm.trans hstop

theorem Region.Formed.blanks_ne_nil {r : Region} (h : r.Formed e) (hleading : ∀ p ∈ r.pieces.head?, p.1 ≠ []) :
    ∀ p ∈ r.pieces, p.1 ≠ [] := by
  intro p hp
  cases hpieces : r.pieces with
  | nil =>
    rw [hpieces] at hp
    cases hp
  | cons q pieces =>
    rw [hpieces] at hp
    rcases List.mem_cons.mp hp with rfl | hp
    · exact hleading p (by rw [hpieces]; rfl)
    · exact h.separated p (by rw [hpieces]; exact hp)

theorem IsRegion.formed {r : Region} (h : IsRegion e cs r rest) : r.Formed e := by
  induction h with
  | @marker blanks _ m hblanks hm =>
    refine ⟨hm, hblanks, List.forall_mem_nil _, List.forall_mem_nil _, fun pre c post hinner _ => ?_⟩
    have hc : c ∈ blanks := by
      rw [show blanks = pre ++ c :: post from hinner]
      exact List.mem_append_right _ (List.mem_cons_self ..)
    exact unmarked_of_isTagBlank (hblanks c hc) _
  | @fragment blanks text cs rest r hblanks hne hf hr ih =>
    rw [append_of_region hr.region_eq] at hf
    obtain ⟨hstops, hcloses, hexposes⟩ := fragment_append_eq_ended_iff.mp hf
    have htext : IsFragment e text := by
      refine ⟨hne, hcloses, fun pre c post heq hpre => ?_⟩
      obtain ⟨hc, hunmarked⟩ := stopsAt_eq_false_iff.mp (hexposes pre c post heq hpre)
      rw [← List.cons_append] at hunmarked
      exact ⟨hc, hunmarked.of_append⟩
    refine ⟨ih.marker, ih.blanks, List.forall_mem_cons.mpr ⟨⟨hblanks, htext⟩, ih.pieces⟩, ?_, ?_⟩
    · exact ih.blanks_ne_nil ((ih.stops_iff rest).mp hstops)
    · intro pre c post hinner hpre
      rw [Region.inner_cons] at hinner
      -- the place is in the blanks, in the fragment or behind it
      obtain ⟨mid, rfl, -⟩ | ⟨mid, rfl, hbehind⟩ := append_eq_append_cons hinner
      · exact unmarked_of_isTagBlank (hblanks c (List.mem_append_right _ (List.mem_cons_self ..))) _
      rw [closes_append_iff fun c hc => notMem_delimiters_of_isTagBlank (hblanks c hc)] at hpre
      obtain ⟨mid', hsplit, rfl⟩ | ⟨mid', rfl, hrest⟩ := append_eq_append_cons hbehind
      · have hgoes := (stopsAt_eq_false_iff.mp (hexposes mid c mid' hsplit hpre)).2
        have hassoc : c :: (mid' ++ (r.chars ++ rest)) = c :: (mid' ++ r.inner ++ r.marker.text) ++ rest := by
          simp [Region.chars_eq]
        rw [hassoc] at hgoes
        exact hgoes.of_append
      · rw [closes_append_of_closes hcloses] at hpre
        exact ih.first mid' c post hrest hpre

theorem Region.Formed.of_cons {blanks text : List Char} {r : Region}
    (h : Region.Formed e { r with pieces := (blanks, text) :: r.pieces }) : r.Formed e := by
  obtain ⟨⟨hblanks, htext⟩, hpieces⟩ := List.forall_mem_cons.mp h.pieces
  refine ⟨h.marker, h.blanks, hpieces, fun p hp => h.separated p (List.mem_of_mem_tail hp), ?_⟩
  intro pre c post hinner hpre
  refine h.first (blanks ++ (text ++ pre)) c post ?_ ?_
  · rw [Region.inner_cons, hinner]
    simp
  · rwa [closes_append_iff fun c hc => notMem_delimiters_of_isTagBlank (hblanks c hc), closes_append_of_closes htext.closes]

theorem Region.Formed.isRegion {r : Region} (h : r.Formed e) (rest : List Char) :
    IsRegion e (r.chars ++ rest) r rest := by
  obtain ⟨pieces, blanks, marker⟩ := r
  induction pieces with
  | nil =>
    have hchars : (Region.mk [] blanks marker).chars ++ rest = blanks ++ (marker.text ++ rest) := List.append_assoc ..
    rw [hchars]
    exact .marker h.blanks h.marker
  | cons p pieces ih =>
    obtain ⟨leading, text⟩ := p
    have hrest : (Region.mk pieces blanks marker).Formed e := h.of_cons
    have hleading : ∀ c ∈ leading, isTagBlank c = true := (h.pieces _ (List.mem_cons_self ..)).1
    have htext : IsFragment e text := (h.pieces _ (List.mem_cons_self ..)).2
    have hstops : Stops e ((Region.mk pieces blanks marker).chars ++ rest) :=
      (hrest.stops_iff rest).mpr fun q hq => h.separated q (List.mem_of_mem_head? hq)
    rw [Region.chars_cons leading text ⟨pieces, blanks, marker⟩]
    refine .fragment hleading htext.nonempty (fragment_append_eq_ended_iff.mpr ⟨hstops, htext.closes, ?_⟩) (ih hrest)
    intro pre c post hsplit hpre
    have hinner : (Region.mk ((leading, text) :: pieces) blanks marker).inner =
        leading ++ pre ++ c :: (post ++ (Region.mk pieces blanks marker).inner) := by
      rw [Region.inner_cons leading text ⟨pieces, blanks, marker⟩, hsplit]
      simp
    have hopen : Closes (.plain 0) (leading ++ pre) := by
      rwa [closes_append_iff fun c hc => notMem_delimiters_of_isTagBlank (hleading c hc)]
    have hunmarked := h.unmarked hinner hopen rest
    rw [List.append_assoc, ← List.append_assoc _ marker.text] at hunmarked
    exact stopsAt_eq_false_iff.mpr ⟨(htext.exposes pre c post hsplit hpre).1, hunmarked⟩

/-! ### Tags and interpolations -/

/-- A name ends at the first stop. -/
theorem nameRun_append_eq_iff {name ds : List Char} :
    nameRun (name ++ ds) = (name, ds) ↔ (ds = [] ∨ Stops .tag ds) ∧
      ∀ pre c post, name = pre ++ c :: post → Enclosure.tag.stopsAt c (post ++ ds) = false := by
  induction name with
  | nil =>
    cases ds with
    | nil => simp [nameRun]
    | cons c ds => simp [nameRun_cons_eq_iff, Stops]
  | cons c name ih =>
    rw [List.cons_append, nameRun_cons_eq_iff]
    constructor
    · rintro (⟨hnil, -⟩ | ⟨_, heq, hgoes, hname⟩)
      · cases hnil
      cases heq
      obtain ⟨hends, hinside⟩ := ih.mp hname
      refine ⟨hends, fun pre d post heq => ?_⟩
      cases pre with
      | nil =>
        obtain ⟨rfl, rfl⟩ := List.cons.inj heq
        exact hgoes
      | cons b pre => exact hinside pre d post (List.cons.inj heq).2
    · rintro ⟨hends, hinside⟩
      refine .inr ⟨name, rfl, hinside [] c name rfl, ih.mpr ⟨hends, fun pre d post heq => ?_⟩⟩
      exact hinside (c :: pre) d post (by rw [heq, List.cons_append])

/-- The form of tags and interpolations. The name of a tag has no blank, and no end marker starts in it. A tag that
starts like a comment is none. -/
inductive Lexeme.Formed : Lexeme → Prop
  | tag {opener : TagOpener} {name : List Char} {r : Region}
      (hname : ∀ pre c post, name = pre ++ c :: post → isTagBlank c = false ∧ Unmarked .tag (c :: (post ++ r.chars)))
      (hleading : ∀ p ∈ r.pieces.head?, p.1 ≠ []) (hregion : r.Formed .tag)
      (hcomment : ¬ commentOpen <+: opener.text ++ name ++ r.chars) : Formed (.tag opener name r)
  | interpolation {r : Region} (hregion : r.Formed .interpolation) : Formed (.interpolation r)

/-- The comment symbol is probed first. -/
theorem not_prefix_of_opener? {o : Opener} (ho : opener? cs = some (o, rest)) (hne : o ≠ .comment) :
    ¬ commentOpen <+: cs := by
  rintro ⟨after, rfl⟩
  have hcomment : opener? (commentOpen ++ after) = some (.comment, after) := rfl
  cases ho.symm.trans hcomment
  exact hne rfl

theorem opener?_tag {opener : TagOpener} (h : ¬ commentOpen <+: opener.text ++ cs) :
    opener? (opener.text ++ cs) = some (.tag opener, cs) := by
  rcases opener with ⟨_ | _, _ | _⟩
  · have hnone : commentOpen.isPrefixOf? ('<' :: '#' :: cs) = none := isPrefixOf?_eq_none_iff.mpr h
    show opener? ('<' :: '#' :: cs) = _
    rw [opener?, Text.firstMatch, Opener.all, List.findSome?_cons, Opener.text, hnone]
    rfl
  · rfl
  · rfl
  · rfl

theorem Lexeme.formed_of_read {x : Lexeme} (h : Lexeme.read (x.chars ++ rest) = .ok (x, rest))
    (htext : x.kind ≠ .text) (hcomment : x.kind ≠ .comment) : x.Formed := by
  have hview := lexemeView (x.chars ++ rest)
  generalize Lexeme.read (x.chars ++ rest) = k at h hview
  cases hview with
  | text =>
    cases h
    exact absurd rfl htext
  | comment =>
    cases h
    exact absurd rfl hcomment
  | openComment => cases h
  | region hopens =>
    obtain ⟨r, rfl, hr⟩ := readRegion_eq_ok_iff.mp h
    have hregion := (isRegion_of_region hr).formed
    cases hopens with
    | interpolation => exact .interpolation hregion
    | @tag name opener _ ho hn =>
      have hds := append_of_region hr
      subst hds
      obtain ⟨hends, hinside⟩ := nameRun_append_eq_iff.mp hn
      refine .tag (fun pre c post heq => ?_) ?_ hregion ?_
      · obtain ⟨hc, hunmarked⟩ := stopsAt_eq_false_iff.mp (hinside pre c post heq)
        rw [← List.append_assoc, ← List.cons_append] at hunmarked
        exact ⟨hc, hunmarked.of_append⟩
      · refine (hregion.stops_iff rest).mp (hends.resolve_left ?_)
        exact List.append_ne_nil_of_left_ne_nil (decisive_chars r).1 rest
      · exact fun hstarts => not_prefix_of_opener? ho nofun (hstarts.trans (List.prefix_append ..))

theorem Lexeme.Formed.read {x : Lexeme} (h : x.Formed) : Lexeme.read x.chars = .ok (x, []) := by
  cases h with
  | @tag opener name r hname hleading hregion hcomment =>
    have hn : nameRun (name ++ r.chars) = (name, r.chars) := by
      refine nameRun_append_eq_iff.mpr ⟨.inr ?_, fun pre c post heq => ?_⟩
      · have hstops := (hregion.stops_iff []).mpr hleading
        rwa [List.append_nil] at hstops
      · exact stopsAt_eq_false_iff.mpr (hname pre c post heq)
    have hopens : OpensRegion (opener.text ++ (name ++ r.chars)) .tag (opener.text ++ name) (.tag opener name) r.chars :=
      .tag (opener?_tag (by rwa [← List.append_assoc])) hn
    have hr := (hregion.isRegion []).region_eq
    rw [List.append_nil] at hr
    rw [Lexeme.chars, List.append_assoc, hopens.read_eq]
    exact readRegion_eq_ok_iff.mpr ⟨r, rfl, hr⟩
  | @interpolation r hregion =>
    have hopens : OpensRegion (interpolationOpen ++ r.chars) .interpolation interpolationOpen .interpolation r.chars :=
      .interpolation rfl
    have hr := (hregion.isRegion []).region_eq
    rw [List.append_nil] at hr
    rw [Lexeme.chars, hopens.read_eq]
    exact readRegion_eq_ok_iff.mpr ⟨r, rfl, hr⟩

/-! ### Tokens -/

/-- The parameters list the pieces of a region that starts at offset `start`: they run from the start of the first
fragment to the end of the last one. -/
structure Params.Lists (p : Params) (start : Nat) (pieces : List (List Char × List Char)) : Prop where
  covers : ∀ blanks text rest, pieces = (blanks, text) :: rest → p.text = String.ofList (text ++ piecesText rest) ∧
    p.span = ⟨start + byteLength blanks, start + byteLength (piecesText pieces)⟩
  length : p.fragments.length = pieces.length
  fragments : ∀ before blanks text after, pieces = before ++ (blanks, text) :: after →
    p.fragments[before.length]? = some ⟨String.ofList text, ⟨start + byteLength (piecesText before ++ blanks),
      start + byteLength (piecesText before ++ blanks ++ text)⟩⟩

/-- The token is a region behind `opening`. -/
structure Token.Spells (t : Token) (opening : List Char) (r : Region) : Prop where
  raw : t.raw = String.ofList (opening ++ r.chars)
  span : t.span.stop = t.span.start + byteLength (opening ++ r.chars)
  selfClosing : t.selfClosing = true ↔ r.marker = .selfClose
  params_none : t.params = none ↔ r.pieces = []
  params : ∀ p ∈ t.params, p.Lists (t.span.start + byteLength opening) r.pieces

/-- What the token of a tag or an interpolation says about it. -/
inductive Lexeme.Describes : Lexeme → Token → Prop
  | tag {opener : TagOpener} {name : List Char} {r : Region} {t : Token} (hspells : t.Spells (opener.text ++ name) r)
      (hkind : t.kind = if opener.isMacro then .macroTag else .directive) (hclosing : t.closing = opener.closing)
      (htag : t.tag = some (String.ofList name)) : Describes (.tag opener name r) t
  | interpolation {r : Region} {t : Token} (hspells : t.Spells interpolationOpen r) (hkind : t.kind = .interpolation)
      (hclosing : t.closing = false) (htag : t.tag = none) : Describes (.interpolation r) t

theorem length_fragmentsAt (start : Nat) (pieces : List (List Char × List Char)) :
    (fragmentsAt start pieces).length = pieces.length := by
  induction pieces generalizing start with
  | nil => rfl
  | cons p pieces ih => rw [fragmentsAt, List.length_cons, List.length_cons, ih]

theorem getElem?_fragmentsAt (start : Nat) (before : List (List Char × List Char)) (blanks text : List Char)
    (after : List (List Char × List Char)) :
    (fragmentsAt start (before ++ (blanks, text) :: after))[before.length]? = some ⟨String.ofList text,
      ⟨start + byteLength (piecesText before ++ blanks), start + byteLength (piecesText before ++ blanks ++ text)⟩⟩ := by
  induction before generalizing start with
  | nil => simp [fragmentsAt, piecesText, Nat.add_assoc]
  | cons p before ih =>
    obtain ⟨w, f⟩ := p
    rw [List.cons_append, fragmentsAt, List.length_cons, List.getElem?_cons_succ, ih, piecesText_cons]
    simp only [Text.byteLength_append, Nat.add_assoc]

theorem Region.lists_params? {r : Region} {start : Nat} {p : Params} (hp : r.params? start = some p) :
    p.Lists start r.pieces := by
  obtain ⟨pieces, blanks, marker⟩ := r
  cases pieces with
  | nil => cases hp
  | cons q pieces =>
    obtain ⟨leading, text⟩ := q
    cases hp
    refine ⟨?_, length_fragmentsAt _ _, ?_⟩
    · rintro _ _ _ ⟨⟩
      refine ⟨rfl, ?_⟩
      rw [piecesText_cons, Text.byteLength_append leading, ← Nat.add_assoc]
      rfl
    · intro before w f after hpieces
      exact (congrArg (fun ps => (fragmentsAt start ps)[before.length]?) hpieces).trans
        (getElem?_fragmentsAt start before w f after)

theorem Region.params?_eq_none_iff {r : Region} {start : Nat} : r.params? start = none ↔ r.pieces = [] := by
  obtain ⟨pieces, blanks, marker⟩ := r
  cases pieces <;> simp [params?]

theorem Lexeme.Formed.describes_token {x : Lexeme} (h : x.Formed) (start : Nat) : x.Describes (x.token start) := by
  cases h with
  | @tag opener name r =>
    have hself : (r.marker == .selfClose) = true ↔ r.marker = .selfClose := beq_iff_eq
    exact .tag ⟨rfl, rfl, hself, Region.params?_eq_none_iff, fun p hp => Region.lists_params? hp⟩ rfl rfl rfl
  | @interpolation r hregion =>
    have hself : r.marker ≠ .selfClose := by
      rintro hmarker
      have hm := hregion.marker
      rw [hmarker] at hm
      cases hm with
      | tail _ hm => cases hm
    exact .interpolation ⟨rfl, rfl, iff_of_false Bool.false_ne_true hself, Region.params?_eq_none_iff,
      fun p hp => Region.lists_params? hp⟩ rfl rfl rfl

theorem Lexeme.Formed.tokenize {x : Lexeme} (h : x.Formed) :
    Markup.tokenize (String.ofList x.chars) = .ok [x.token 0] := by
  refine tokenize_eq_ok_iff.mpr ⟨[x], ?_, rfl⟩
  have hread := h.read
  have hne : x.chars ≠ [] := by
    intro hnil
    rw [hnil] at hread
    cases hread
    cases h
  rw [String.toList_ofList]
  exact .cons hne hread (.nil [])

/-- The tags and interpolations of a template have the form, and their tokens describe them. Every text of the form is
scanned to one such token. -/
theorem tokens_formed :
    (∀ source ts, tokenize source = .ok ts → ∀ t ∈ ts, t.kind ≠ .text → t.kind ≠ .comment →
      ∃ x : Lexeme, x.Formed ∧ x.Describes t) ∧
    ∀ x : Lexeme, x.Formed → ∃ t, tokenize (String.ofList x.chars) = .ok [t] ∧ t.span.start = 0 ∧ x.Describes t := by
  constructor
  · intro source ts h t ht htext hcomment
    obtain ⟨before, x, after, -, hread, rfl⟩ := exists_read_of_mem h ht
    have hx := Lexeme.formed_of_read hread htext hcomment
    exact ⟨x, hx, hx.describes_token _⟩
  · exact fun x hx => ⟨x.token 0, hx.tokenize, rfl, hx.describes_token 0⟩

/-- The slash in front of a blank and the `>` in brackets end nothing. -/
theorem tokens_formed_brackets :
    ∃ (t : Token) (x : Lexeme), tokenize "<#if x/ y[>]>" = .ok [t] ∧ x.Formed ∧ x.Describes t ∧
      ∃ t', tokenize (String.ofList x.chars) = .ok [t'] ∧ t'.span.start = 0 ∧ x.Describes t' := by
  let params : Params := ⟨"x/ y[>]", ⟨5, 12⟩, [⟨"x/", ⟨5, 7⟩⟩, ⟨"y[>]", ⟨8, 12⟩⟩]⟩
  let tag : Token := ⟨.directive, ⟨0, 13⟩, "<#if x/ y[>]>", some "if", some params, false, false⟩
  have hscan : scan "<#if x/ y[>]>" = ([tag], none) := by
    decide +kernel
  have htokens : tokenize "<#if x/ y[>]>" = .ok [tag] := by
    rw [tokenize, hscan]
  obtain ⟨x, hformed, hdescribes⟩ :=
    tokens_formed.1 _ _ htokens tag (List.mem_cons_self ..) (by decide) (by decide)
  exact ⟨tag, x, htokens, hformed, hdescribes, tokens_formed.2 x hformed⟩

end TemplateSyntax.Markup
