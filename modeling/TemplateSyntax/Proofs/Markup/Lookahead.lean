import Mathlib.Data.List.TakeWhile
import TemplateSyntax.Markup.Lexeme

/-!
# How far the scanner looks

A name, a fragment and a region are read without looking far behind their ends: what follows a marker, or any other text
that decides about the stop in front of it, does not matter (`IsRegion.chars_append`). A bracket that closes nothing is
found whatever follows it (`exists_of_region_underflow`).
-/

namespace TemplateSyntax.Markup

open Text (isTagBlank takeWhile_append_of_head dropWhile_append_of_head)

variable {e : Enclosure}

/-! ### Stops -/

theorem marker?_of_isTagBlank {c : Char} (hc : isTagBlank c = true) (cs : List Char) :
    e.marker? (c :: cs) = none := by
  simp only [isTagBlank, Bool.or_eq_true, beq_iff_eq] at hc
  rcases hc with (((rfl | rfl) | rfl) | rfl) | rfl <;> cases e <;> rfl

theorem stopsAt_tag (c : Char) (cs : List Char) :
    Enclosure.tag.stopsAt c cs = (isTagBlank c || c == '>' || (c == '/' && cs.head? == some '>')) := by
  have hmarker : (Enclosure.tag.marker? (c :: cs)).isSome = (c == '>' || (c == '/' && cs.head? == some '>')) := by
    by_cases hslash : c = '/'
    · subst hslash
      cases cs with
      | nil => rfl
      | cons d cs =>
        by_cases hd : d = '>'
        · subst hd
          rfl
        · simp [Enclosure.marker?, Enclosure.markers, Text.firstMatch, Marker.text, Text.isPrefixOf?_cons_cons, hd, Ne.symm hd]
    · by_cases hclose : c = '>'
      · subst hclose
        rfl
      · simp [Enclosure.marker?, Enclosure.markers, Text.firstMatch, Marker.text, Text.isPrefixOf?_cons_cons, hslash, hclose,
          Ne.symm hslash, Ne.symm hclose]
  rw [Enclosure.stopsAt, hmarker, Bool.or_assoc]

theorem stopsAt_interpolation (c : Char) (cs : List Char) :
    Enclosure.interpolation.stopsAt c cs = (isTagBlank c || c == '}') := by
  by_cases hbrace : c = '}'
  · subst hbrace
    rfl
  · simp [Enclosure.stopsAt, Enclosure.marker?, Enclosure.markers, Text.firstMatch, Marker.text, Text.isPrefixOf?_cons_cons,
      hbrace, Ne.symm hbrace]

/-- No more than the next character decides whether a fragment stops. -/
theorem stopsAt_congr {c : Char} {cs ds : List Char} (h : cs.head? = ds.head?) : e.stopsAt c cs = e.stopsAt c ds := by
  cases e with
  | tag => rw [stopsAt_tag, stopsAt_tag, h]
  | interpolation => rw [stopsAt_interpolation, stopsAt_interpolation]

/-- Only a slash makes the next character matter. -/
theorem stopsAt_of_ne {c : Char} (hc : c ≠ '/') (cs ds : List Char) : e.stopsAt c cs = e.stopsAt c ds := by
  cases e with
  | tag => rw [stopsAt_tag, stopsAt_tag, beq_eq_false_iff_ne.mpr hc, Bool.false_and, Bool.false_and]
  | interpolation => rw [stopsAt_interpolation, stopsAt_interpolation]

/-- The text does not break off where an end marker could go on. -/
def Decisive (l : List Char) : Prop :=
  l ≠ [] ∧ l ≠ ['/']

theorem decisive_cons {c : Char} (hc : c ≠ '/') (cs : List Char) : Decisive (c :: cs) :=
  ⟨List.cons_ne_nil c cs, fun h => hc (List.cons.inj h).1⟩

theorem Decisive.append {l : List Char} (h : Decisive l) (front : List Char) : Decisive (front ++ l) := by
  cases front with
  | nil => exact h
  | cons c front =>
    refine ⟨List.cons_ne_nil c _, fun heq => h.1 ?_⟩
    exact (List.append_eq_nil_iff.mp (List.cons.inj heq).2).2

theorem Decisive.head?_append {l : List Char} (h : Decisive l) (front rest : List Char) :
    (front ++ (l ++ rest)).head? = (front ++ l).head? := by
  obtain ⟨c, cs, rfl⟩ := List.exists_cons_of_ne_nil h.1
  cases front <;> rfl

theorem Decisive.stopsAt_append {c : Char} {cs : List Char} (h : Decisive (c :: cs)) (rest : List Char) :
    e.stopsAt c (cs ++ rest) = e.stopsAt c cs := by
  cases cs with
  | nil => exact stopsAt_of_ne (fun hc => h.2 (by rw [hc])) _ _
  | cons d cs => exact stopsAt_congr rfl

theorem decisive_marker (m : Marker) (rest : List Char) : Decisive (m.text ++ rest) := by
  cases m <;> simp [Decisive, Marker.text]

theorem marker?_append {m : Marker} (hm : m ∈ e.markers) (rest : List Char) :
    e.marker? (m.text ++ rest) = some (m, rest) := by
  cases e <;> cases m <;> first | rfl | simp [Enclosure.markers] at hm

/-! ### Nesting -/

/-- Strings begin with a quote. -/
def WellQuoted : Nesting → Prop
  | .plain _ => True
  | .quoted q _ | .escaped q _ => isQuote q = true

theorem wellQuoted_of_step {c : Char} {nesting nesting' : Nesting} (h : nesting.step c = some nesting')
    (hquoted : WellQuoted nesting) : WellQuoted nesting' := by
  cases nesting with
  | escaped q depth =>
    cases h
    exact hquoted
  | quoted q depth =>
    rw [Nesting.step] at h
    split at h
    · cases h
      exact hquoted
    · split at h <;> cases h
      · trivial
      · exact hquoted
  | plain depth =>
    rw [Nesting.step.eq_def] at h
    dsimp only at h
    split at h
    · next hq =>
      cases h
      exact hq
    split at h
    · cases h
      trivial
    split at h
    · cases depth <;> cases h
      trivial
    · cases h
      trivial

/-- A bracket that closes nothing stands outside brackets and strings. -/
theorem step_eq_none {c : Char} {nesting : Nesting} (h : nesting.step c = none) :
    nesting = .plain 0 ∧ closesBracket c = true := by
  cases nesting with
  | escaped q depth => cases h
  | quoted q depth =>
    rw [Nesting.step] at h
    split at h
    · cases h
    · split at h <;> cases h
  | plain depth =>
    rw [Nesting.step.eq_def] at h
    dsimp only at h
    split at h
    · cases h
    split at h
    · cases h
    split at h
    · next hcloses =>
      cases depth with
      | zero => exact ⟨rfl, hcloses⟩
      | succ depth => cases h
    · cases h

theorem ne_slash_of_closesBracket {c : Char} (h : closesBracket c = true) : c ≠ '/' := by
  rintro rfl
  cases h

/-! ### Fragments -/

theorem stopsAt_of_fragment {nesting : Nesting} {cs text rest : List Char}
    (h : fragment e nesting cs = .ended text rest) : ∃ c ds, rest = c :: ds ∧ e.stopsAt c ds = true := by
  induction cs generalizing nesting text with
  | nil => simp [fragment] at h
  | cons c cs ih =>
    rw [fragment] at h
    split at h
    · next hstops =>
      cases h
      rw [Bool.and_eq_true] at hstops
      exact ⟨c, cs, rfl, hstops.2⟩
    · split at h
      · cases h
      · obtain ⟨t, rfl, hk⟩ := Cut.cons_eq_ended h
        exact ih hk

/-- A fragment ends in front of `l` or goes on with a character that has a nesting. -/
theorem fragment_cons_eq_ended_iff {nesting : Nesting} {c : Char} {cs text rest : List Char} :
    fragment e nesting (c :: cs) = .ended text rest ↔
      (text = [] ∧ rest = c :: cs ∧ nesting = .plain 0 ∧ e.stopsAt c cs = true) ∨
        ∃ t nesting', text = c :: t ∧ ¬(nesting = .plain 0 ∧ e.stopsAt c cs = true) ∧ nesting.step c = some nesting' ∧
          fragment e nesting' cs = .ended t rest := by
  rw [fragment]
  split
  · next hstops =>
    rw [Bool.and_eq_true, decide_eq_true_eq] at hstops
    constructor
    · intro h
      cases h
      exact .inl ⟨rfl, rfl, hstops⟩
    · rintro (⟨rfl, rfl, -⟩ | ⟨t, nesting', -, hgoes, -⟩)
      · rfl
      · exact absurd hstops hgoes
  · next hgoes =>
    rw [Bool.and_eq_true, decide_eq_true_eq] at hgoes
    constructor
    · intro h
      split at h
      · cases h
      · next nesting' hstep =>
        obtain ⟨t, rfl, ht⟩ := Cut.cons_eq_ended h
        exact .inr ⟨t, nesting', rfl, hgoes, hstep, ht⟩
    · rintro (⟨-, -, hstops⟩ | ⟨t, nesting', rfl, -, hstep, ht⟩)
      · exact absurd hstops hgoes
      · rw [hstep]
        dsimp only
        rw [ht]
        rfl

/-- A fragment that is not empty does not start with a stop. -/
theorem stopsAt_of_fragment_append {c : Char} {text cs : List Char}
    (h : fragment e (.plain 0) (c :: text ++ cs) = .ended (c :: text) cs) : e.stopsAt c (text ++ cs) = false := by
  rw [List.cons_append, fragment_cons_eq_ended_iff] at h
  obtain ⟨hnil, -⟩ | ⟨-, -, -, hgoes, -⟩ := h
  · cases hnil
  · simpa using hgoes

theorem stopsAt_of_fragment_underflow {c : Char} {cs before : List Char}
    (h : fragment e (.plain 0) (c :: cs) = .underflow before) : e.stopsAt c cs = false := by
  rw [fragment] at h
  split at h
  · cases h
  · next hgoes => simpa using hgoes

/-- Whether a fragment is read does not depend on what follows a decisive text behind it. -/
theorem fragment_append_iff {nesting : Nesting} {text l : List Char} (hl : Decisive l) (rest : List Char) :
    fragment e nesting (text ++ (l ++ rest)) = .ended text (l ++ rest) ↔
      fragment e nesting (text ++ l) = .ended text l := by
  induction text generalizing nesting with
  | nil =>
    obtain ⟨c, cs, rfl⟩ := List.exists_cons_of_ne_nil hl.1
    rw [List.nil_append, List.nil_append, List.cons_append, fragment_cons_eq_ended_iff, fragment_cons_eq_ended_iff,
      hl.stopsAt_append]
    simp
  | cons c text ih =>
    rw [List.cons_append, List.cons_append, fragment_cons_eq_ended_iff, fragment_cons_eq_ended_iff,
      stopsAt_congr (hl.head?_append text rest)]
    simp [ih]

theorem exists_of_fragment_underflow {nesting : Nesting} {cs before : List Char}
    (h : fragment e nesting cs = .underflow before) :
    ∃ c after, cs = before ++ c :: after ∧ closesBracket c = true ∧
      ∀ rest, fragment e nesting (before ++ c :: rest) = .underflow before := by
  induction cs generalizing nesting before with
  | nil => cases h
  | cons c cs ih =>
    rw [fragment] at h
    split at h
    · cases h
    · next hgoes =>
      split at h
      · next hstep =>
        cases h
        obtain ⟨rfl, hcloses⟩ := step_eq_none hstep
        refine ⟨c, cs, rfl, hcloses, fun rest => ?_⟩
        rw [stopsAt_of_ne (ne_slash_of_closesBracket hcloses) cs rest] at hgoes
        rw [List.nil_append, fragment, if_neg hgoes, hstep]
      · next nesting' hstep =>
        cases hf : fragment e nesting' cs with
        | ended text rest => rw [hf] at h; cases h
        | ranOut => rw [hf] at h; cases h
        | underflow before' =>
          rw [hf] at h
          cases h
          obtain ⟨d, after, rfl, hcloses, hrest⟩ := ih hf
          refine ⟨d, after, rfl, hcloses, fun rest => ?_⟩
          have hhead : (before' ++ d :: after).head? = (before' ++ d :: rest).head? := by cases before' <;> rfl
          rw [stopsAt_congr hhead] at hgoes
          rw [List.cons_append, fragment, if_neg hgoes, hstep]
          dsimp only
          rw [hrest]
          rfl

/-! ### Regions -/

theorem isTagBlank_of_stopsAt_eq_false {c : Char} {cs : List Char} (h : e.stopsAt c cs = false) :
    isTagBlank c = false ∧ e.marker? (c :: cs) = none := by
  rw [Enclosure.stopsAt, Bool.or_eq_false_iff] at h
  exact ⟨h.1, by simpa using h.2⟩

section Blanks

variable {blanks : List Char} (hblanks : ∀ c ∈ blanks, isTagBlank c = true)

include hblanks

theorem region_blanks : region e blanks = .ranOut := by
  have hdrop : blanks.dropWhile isTagBlank = [] := List.dropWhile_eq_nil_iff.mpr hblanks
  rw [region_eq, hdrop, Enclosure.marker?_nil]
  rfl

theorem region_marker {m : Marker} (hm : m ∈ e.markers) (rest : List Char) :
    region e (blanks ++ (m.text ++ rest)) = .ended ⟨[], blanks, m⟩ rest := by
  have hhead : ∀ c ∈ (m.text ++ rest).head?, isTagBlank c = false := by
    cases m <;> simp [Marker.text] <;> decide
  rw [region_eq, takeWhile_append_of_head hblanks hhead, dropWhile_append_of_head hblanks hhead, marker?_append hm]

/-- Behind its blanks a region begins with a fragment if no marker is there. -/
theorem region_fragment {c : Char} {cs : List Char} (hc : e.stopsAt c cs = false) :
    region e (blanks ++ c :: cs) =
      match fragment e (.plain 0) (c :: cs) with
      | .ended text rest => (region e rest).cons (blanks, text)
      | .underflow before => .underflow (blanks ++ before)
      | .ranOut => .ranOut := by
  obtain ⟨hblank, hmarker⟩ := isTagBlank_of_stopsAt_eq_false hc
  have hhead : ∀ d ∈ (c :: cs).head?, isTagBlank d = false := by simpa using hblank
  have heq := region_eq e (blanks ++ c :: cs)
  rw [takeWhile_append_of_head hblanks hhead, dropWhile_append_of_head hblanks hhead, hmarker] at heq
  exact heq

theorem region_append {text cs : List Char} (hne : text ≠ [])
    (hf : fragment e (.plain 0) (text ++ cs) = .ended text cs) :
    region e (blanks ++ (text ++ cs)) = (region e cs).cons (blanks, text) := by
  obtain ⟨c, text, rfl⟩ := List.exists_cons_of_ne_nil hne
  have hc := stopsAt_of_fragment_append hf
  rw [List.cons_append] at hf ⊢
  rw [region_fragment hblanks hc, hf]

theorem region_underflow {cs before : List Char} (hf : fragment e (.plain 0) cs = .underflow before) :
    region e (blanks ++ cs) = .underflow (blanks ++ before) := by
  cases cs with
  | nil => cases hf
  | cons c cs => rw [region_fragment hblanks (stopsAt_of_fragment_underflow hf), hf]

end Blanks

/-- What a region can be: behind its blanks it is at its end marker, or a fragment begins and the region goes on behind
it if that ends. -/
inductive RegionView (e : Enclosure) : List Char → RegionCut → Prop
  | blanks {blanks : List Char} (h : ∀ c ∈ blanks, isTagBlank c = true) : RegionView e blanks .ranOut
  | marker {blanks rest : List Char} {m : Marker} (h : ∀ c ∈ blanks, isTagBlank c = true) (hm : m ∈ e.markers) :
      RegionView e (blanks ++ (m.text ++ rest)) (.ended ⟨[], blanks, m⟩ rest)
  | fragment {blanks text cs : List Char} (h : ∀ c ∈ blanks, isTagBlank c = true) (hne : text ≠ [])
      (hf : fragment e (.plain 0) (text ++ cs) = .ended text cs) :
      RegionView e (blanks ++ (text ++ cs)) ((region e cs).cons (blanks, text))
  | underflow {blanks cs before : List Char} (h : ∀ c ∈ blanks, isTagBlank c = true)
      (hf : fragment e (.plain 0) cs = .underflow before) : RegionView e (blanks ++ cs) (.underflow (blanks ++ before))
  | ranOut {blanks cs : List Char} {c : Char} (h : ∀ c ∈ blanks, isTagBlank c = true) (hc : e.stopsAt c cs = false)
      (hf : fragment e (.plain 0) (c :: cs) = .ranOut) : RegionView e (blanks ++ c :: cs) .ranOut

theorem regionView (e : Enclosure) (cs : List Char) : RegionView e cs (region e cs) := by
  have hblanks : ∀ c ∈ cs.takeWhile isTagBlank, isTagBlank c = true := fun c hc => List.mem_takeWhile_imp hc
  have happend := List.takeWhile_append_dropWhile (p := isTagBlank) (l := cs)
  cases hd : cs.dropWhile isTagBlank with
  | nil =>
    rw [hd, List.append_nil] at happend
    rw [happend] at hblanks
    rw [region_blanks hblanks]
    exact .blanks hblanks
  | cons c ds =>
    rw [hd] at happend
    have hc : isTagBlank c = false := by
      have hhead := List.head?_dropWhile_not isTagBlank cs
      rw [hd] at hhead
      simpa using hhead
    rw [← happend]
    cases hm : e.marker? (c :: ds) with
    | none =>
      have hstops : e.stopsAt c ds = false := by rw [Enclosure.stopsAt, hc, hm]; rfl
      rw [region_fragment hblanks hstops]
      cases hf : fragment e (.plain 0) (c :: ds) with
      | ended text rest =>
        have hne := fragment_ne_nil hstops hf
        have hsplit := append_of_fragment hf
        rw [hsplit] at hf ⊢
        exact .fragment hblanks hne hf
      | underflow before => exact .underflow hblanks hf
      | ranOut => exact .ranOut hblanks hstops hf
    | some r =>
      obtain ⟨m, rest⟩ := r
      obtain ⟨m', hm', heq⟩ := List.exists_of_findSome?_eq_some hm
      obtain ⟨rest', -, heq⟩ := Option.map_eq_some_iff.mp heq
      cases heq
      rw [Text.append_of_firstMatch hm, region_marker hblanks hm']
      exact .marker hblanks hm'

/-- `r` is the region at the start of `cs`, and `rest` is what follows it. -/
inductive IsRegion (e : Enclosure) : (cs : List Char) → Region → (rest : List Char) → Prop
  | marker {blanks rest : List Char} {m : Marker} (h : ∀ c ∈ blanks, isTagBlank c = true) (hm : m ∈ e.markers) :
      IsRegion e (blanks ++ (m.text ++ rest)) ⟨[], blanks, m⟩ rest
  | fragment {blanks text cs rest : List Char} {r : Region} (h : ∀ c ∈ blanks, isTagBlank c = true) (hne : text ≠ [])
      (hf : fragment e (.plain 0) (text ++ cs) = .ended text cs) (hr : IsRegion e cs r rest) :
      IsRegion e (blanks ++ (text ++ cs)) { r with pieces := (blanks, text) :: r.pieces } rest

theorem length_lt_append {blanks text : List Char} (hne : text ≠ []) (cs : List Char) :
    cs.length < (blanks ++ (text ++ cs)).length := by
  have hlength := List.length_pos_iff.mpr hne
  simp only [List.length_append]
  omega

theorem isRegion_of_region {cs rest : List Char} {r : Region} (h : region e cs = .ended r rest) :
    IsRegion e cs r rest := by
  induction hn : cs.length using Nat.strongRecOn generalizing cs r with
  | ind n ih =>
    have hview := regionView e cs
    generalize region e cs = k at h hview
    cases hview with
    | blanks | underflow | ranOut => cases h
    | marker hblanks hm =>
      cases h
      exact .marker hblanks hm
    | @fragment blanks text cs hblanks hne hf =>
      obtain ⟨r', rfl, hr⟩ := RegionCut.cons_eq_ended h
      exact .fragment hblanks hne hf (ih cs.length (hn ▸ length_lt_append hne cs) hr rfl)

theorem IsRegion.region_eq {cs rest : List Char} {r : Region} (h : IsRegion e cs r rest) :
    region e cs = .ended r rest := by
  induction h with
  | marker hblanks hm => exact region_marker hblanks hm _
  | fragment hblanks hne hf _ ih =>
    rw [region_append hblanks hne hf, ih]
    rfl

theorem decisive_chars (r : Region) : Decisive r.chars :=
  (List.append_nil r.marker.text ▸ decisive_marker r.marker []).append _

/-- A region is read in the same way in front of any text. -/
theorem IsRegion.chars_append {cs rest : List Char} {r : Region} (h : IsRegion e cs r rest) (rest' : List Char) :
    IsRegion e (r.chars ++ rest') r rest' := by
  induction h with
  | marker hblanks hm => simpa [Region.chars] using IsRegion.marker hblanks hm
  | fragment hblanks hne hf hr ih =>
    rw [append_of_region hr.region_eq, fragment_append_iff (decisive_chars _),
      ← fragment_append_iff (decisive_chars _) rest'] at hf
    simpa [Region.chars] using IsRegion.fragment hblanks hne hf ih

theorem RegionCut.cons_eq_underflow {piece : List Char × List Char} {k : RegionCut} {before : List Char}
    (h : k.cons piece = .underflow before) :
    ∃ before', before = piece.1 ++ (piece.2 ++ before') ∧ k = .underflow before' := by
  cases k with
  | underflow before' =>
    cases h
    exact ⟨before', List.append_assoc .., rfl⟩
  | ended | ranOut => cases h

/-- A bracket that closes nothing is found whatever follows it. -/
theorem exists_of_region_underflow {cs before : List Char} (h : region e cs = .underflow before) :
    ∃ c after, cs = before ++ c :: after ∧ closesBracket c = true ∧
      ∀ rest, region e (before ++ c :: rest) = .underflow before := by
  induction hn : cs.length using Nat.strongRecOn generalizing cs before with
  | ind n ih =>
    have hview := regionView e cs
    generalize region e cs = k at h hview
    cases hview with
    | blanks | marker | ranOut => cases h
    | underflow hblanks hf =>
      cases h
      obtain ⟨c, after, rfl, hcloses, hrest⟩ := exists_of_fragment_underflow hf
      refine ⟨c, after, (List.append_assoc ..).symm, hcloses, fun rest => ?_⟩
      rw [List.append_assoc, region_underflow hblanks (hrest rest)]
    | @fragment blanks text cs hblanks hne hf =>
      obtain ⟨before', rfl, hr⟩ := RegionCut.cons_eq_underflow h
      obtain ⟨c, after, rfl, hcloses, hrest⟩ := ih cs.length (hn ▸ length_lt_append hne cs) hr rfl
      refine ⟨c, after, by simp, hcloses, fun rest => ?_⟩
      have hl : Decisive (before' ++ [c]) := (decisive_cons (ne_slash_of_closesBracket hcloses) []).append before'
      -- what follows the bracket does not matter to the fragment in front of it
      have hfragment (ds : List Char) :
          fragment e (.plain 0) (text ++ (before' ++ c :: ds)) = .ended text (before' ++ c :: ds) ↔
            fragment e (.plain 0) (text ++ (before' ++ [c])) = .ended text (before' ++ [c]) := by
        rw [List.append_cons before']
        exact fragment_append_iff hl ds
      rw [hfragment, ← hfragment rest] at hf
      rw [List.append_assoc, List.append_assoc, region_append hblanks hne hf, hrest]
      simp [RegionCut.cons]

end TemplateSyntax.Markup
