import TemplateSyntax.Proofs.Markup.Resuming

/-!
# Incomplete and hopeless templates

A template that breaks off in a comment or a tag is incomplete: whatever is open in it can be closed, character by
character, and the template then ends (`exists_region_completion`). A bracket that closes nothing is hopeless: it is
found whatever follows it (`read_underflow`). The scanner tells the two apart (`tokenize_error_classifies`).
-/

namespace TemplateSyntax.Markup

open Text (byteLength isTagBlank slice? splitBytes? slice?_eq_some_iff splitBytes?_eq_some_iff)

variable {e : Enclosure} {cs ds opening rest : List Char} {build : Region → Lexeme}

/-! ### Going on behind the end -/

/-- The character goes on neither with an opening symbol nor with an end marker. -/
def Seals (z : Char) : Prop :=
  z ≠ '>' ∧ EndsOpener z

theorem seals_blank : Seals ' ' := by
  unfold Seals EndsOpener
  decide

theorem seals_parenthesis : Seals ')' := by
  unfold Seals EndsOpener
  decide

theorem seals_of_isQuote {q : Char} (h : isQuote q = true) : Seals q := by
  rw [isQuote, Bool.or_eq_true, beq_iff_eq, beq_iff_eq] at h
  unfold Seals EndsOpener
  rcases h with rfl | rfl
  · decide
  · decide

theorem Seals.stopsAt_append {z : Char} (hz : Seals z) (c : Char) (cs rest : List Char) :
    e.stopsAt c (cs ++ z :: rest) = e.stopsAt c cs := by
  cases e with
  | tag =>
    rw [stopsAt_tag, stopsAt_tag]
    cases cs with
    | nil => simp [hz.1]
    | cons d cs => rfl
  | interpolation => rw [stopsAt_interpolation, stopsAt_interpolation]

/-- A stop is decisive: a slash alone is none. -/
theorem decisive_of_stopsAt {c : Char} {cs : List Char} (h : e.stopsAt c cs = true) : Decisive (c :: cs) := by
  refine ⟨List.cons_ne_nil c cs, fun heq => ?_⟩
  cases heq
  cases e <;> exact absurd h (by decide)

/-! ### Fragments -/

/-- Open strings and brackets can be closed one after the other. -/
theorem exists_closing (nesting : Nesting) (hquoted : WellQuoted nesting) {c : Char} {cs : List Char}
    (hstops : e.stopsAt c cs = true) (hc : Seals c) :
    ∃ text, fragment e nesting (text ++ c :: cs) = .ended text (c :: cs) ∧ ∀ z ∈ (text ++ [c]).head?, Seals z := by
  have hplain (depth : Nat) : ∃ text, fragment e (.plain depth) (text ++ c :: cs) = .ended text (c :: cs) ∧
      ∀ z ∈ (text ++ [c]).head?, Seals z := by
    induction depth with
    | zero =>
      refine ⟨[], fragment_cons_eq_ended_iff.mpr (.inl ⟨rfl, rfl, rfl, hstops⟩), ?_⟩
      rintro z ⟨⟩
      exact hc
    | succ depth ih =>
      obtain ⟨text, htext, -⟩ := ih
      refine ⟨')' :: text, fragment_cons_eq_ended_iff.mpr (.inr ⟨text, .plain depth, rfl, by simp, rfl, htext⟩), ?_⟩
      rintro z ⟨⟩
      exact seals_parenthesis
  have hquote (q : Char) (depth : Nat) (hq : isQuote q = true) :
      ∃ text, fragment e (.quoted q depth) (text ++ c :: cs) = .ended text (c :: cs) ∧
        ∀ z ∈ (text ++ [c]).head?, Seals z := by
    obtain ⟨text, htext, -⟩ := hplain depth
    have hstep : (Nesting.quoted q depth).step q = some (.plain depth) := by
      have hne : q ≠ '\\' := by
        rintro rfl
        cases hq
      rw [Nesting.step, if_neg hne, if_pos rfl]
    refine ⟨q :: text, fragment_cons_eq_ended_iff.mpr (.inr ⟨text, .plain depth, rfl, by simp, hstep, htext⟩), ?_⟩
    rintro z ⟨⟩
    exact seals_of_isQuote hq
  cases nesting with
  | plain depth => exact hplain depth
  | quoted q depth => exact hquote q depth hquoted
  | escaped q depth =>
    -- the first quote is the escaped character
    obtain ⟨text, htext, -⟩ := hquote q depth hquoted
    refine ⟨q :: text, fragment_cons_eq_ended_iff.mpr (.inr ⟨text, .quoted q depth, rfl, by simp, rfl, htext⟩), ?_⟩
    rintro z ⟨⟩
    exact seals_of_isQuote hquoted

/-- A fragment that runs out can be ended. -/
theorem exists_fragment_completion {nesting : Nesting} (hquoted : WellQuoted nesting)
    (h : fragment e nesting cs = .ranOut) {c : Char} {rest : List Char} (hstops : e.stopsAt c rest = true)
    (hc : Seals c) :
    ∃ text, fragment e nesting (cs ++ (text ++ c :: rest)) = .ended (cs ++ text) (c :: rest) ∧
      ∀ z ∈ (text ++ [c]).head?, Seals z := by
  induction cs generalizing nesting with
  | nil => exact exists_closing nesting hquoted hstops hc
  | cons d cs ih =>
    rw [fragment] at h
    split at h
    · cases h
    next hgoes =>
    split at h
    · cases h
    next nesting' hstep =>
    have hrunsOut : fragment e nesting' cs = .ranOut := by
      cases hf : fragment e nesting' cs with
      | ranOut => rfl
      | ended | underflow =>
        rw [hf] at h
        cases h
    obtain ⟨text, htext, hhead⟩ := ih (wellQuoted_of_step hstep hquoted) hrunsOut
    refine ⟨text, fragment_cons_eq_ended_iff.mpr (.inr ⟨cs ++ text, nesting', rfl, ?_, hstep, htext⟩), hhead⟩
    rw [Bool.and_eq_true, decide_eq_true_eq] at hgoes
    obtain ⟨z, more, hz⟩ : ∃ z more, text ++ c :: rest = z :: more := by cases text <;> exact ⟨_, _, rfl⟩
    have hseals : Seals z := by
      refine hhead z ?_
      cases text <;> cases hz <;> rfl
    rw [← hseals.stopsAt_append d cs more, ← hz] at hgoes
    exact hgoes

/-! ### Regions -/

theorem exists_marker (e : Enclosure) : ∃ m, m ∈ e.markers := by
  cases e with
  | tag => exact ⟨.close, by decide⟩
  | interpolation => exact ⟨.brace, by decide⟩

/-- A region that runs out can be ended. -/
theorem exists_region_completion (h : region e cs = .ranOut) :
    ∃ z rest r, Seals z ∧ (cs = [] → z = ' ') ∧ region e (cs ++ z :: rest) = .ended r [] := by
  obtain ⟨m, hm⟩ := exists_marker e
  have hblank : ∀ c ∈ [' '], isTagBlank c = true := List.forall_mem_singleton.mpr rfl
  have hend : region e (' ' :: m.text) = .ended ⟨[], [' '], m⟩ [] := by
    have hmarker := region_marker hblank hm []
    rwa [List.append_nil] at hmarker
  induction hn : cs.length using Nat.strongRecOn generalizing cs with
  | ind n ih =>
    have hview := regionView e cs
    generalize region e cs = k at h hview
    cases hview with
    | marker | underflow => cases h
    | blanks hblanks =>
      refine ⟨' ', m.text, ⟨[], cs ++ [' '], m⟩, seals_blank, fun _ => rfl, ?_⟩
      have hmarker := region_marker (List.forall_mem_append.mpr ⟨hblanks, hblank⟩) hm []
      rw [List.append_nil, List.append_assoc] at hmarker
      exact hmarker
    | @fragment blanks text cs hblanks hne hf =>
      have hcs : region e cs = .ranOut := by
        cases hr : region e cs with
        | ranOut => rfl
        | ended | underflow =>
          rw [hr] at h
          cases h
      obtain ⟨z, rest, r, hz, -, hr⟩ := ih cs.length (hn ▸ length_lt_append hne cs) hcs rfl
      refine ⟨z, rest, ⟨(blanks, text) :: r.pieces, r.blanks, r.marker⟩, hz, fun heq => absurd heq (by simp [hne]), ?_⟩
      obtain ⟨c, ds, rfl, hstops⟩ := stopsAt_of_fragment hf
      have hf' := (fragment_append_iff (decisive_of_stopsAt hstops) (z :: rest)).mpr hf
      rw [List.append_assoc, List.append_assoc, region_append hblanks hne hf', hr]
      rfl
    | @ranOut blanks cs c hblanks hc hf =>
      have hstops : e.stopsAt ' ' m.text = true := by cases e <;> rfl
      obtain ⟨text, htext, hhead⟩ := exists_fragment_completion (by trivial) hf hstops seals_blank
      obtain ⟨z, rest, hz⟩ : ∃ z rest, text ++ ' ' :: m.text = z :: rest := by cases text <;> exact ⟨_, _, rfl⟩
      refine ⟨z, rest, ⟨[(blanks, c :: cs ++ text)], [' '], m⟩, ?_, fun heq => absurd heq (by simp), ?_⟩
      · refine hhead z ?_
        cases text <;> cases hz <;> rfl
      · rw [← List.append_assoc] at htext
        rw [List.append_assoc, ← hz, ← List.append_assoc (c :: cs), region_append hblanks (by simp) htext, hend]
        rfl

/-! ### Lexemes -/

/-- An opening symbol and a name that ran out go on in front of a blank. -/
theorem OpensRegion.append {z : Char} (h : OpensRegion cs e opening build ds) (hz : Seals z) (hds : ds = [] → z = ' ')
    (rest : List Char) : OpensRegion (cs ++ z :: rest) e opening build (ds ++ z :: rest) := by
  have hname (name ds : List Char) (hn : nameRun (name ++ ds) = (name, ds)) (hds : ds = [] → z = ' ') :
      nameRun (name ++ (ds ++ z :: rest)) = (name, ds ++ z :: rest) := by
    induction name with
    | nil =>
      cases ds with
      | nil =>
        rw [hds rfl]
        exact nameRun_cons_eq_iff.mpr (.inl ⟨rfl, rfl, rfl⟩)
      | cons c ds =>
        obtain ⟨-, -, hstops⟩ | ⟨tail, hnil, -⟩ := nameRun_cons_eq_iff.mp hn
        · exact nameRun_cons_eq_iff.mpr (.inl ⟨rfl, rfl, (hz.stopsAt_append c ds rest).trans hstops⟩)
        · cases hnil
    | cons c name ih =>
      obtain ⟨hnil, -⟩ | ⟨tail, htail, hgoes, hn⟩ := nameRun_cons_eq_iff.mp hn
      · cases hnil
      · cases htail
        have hgoes' : Enclosure.tag.stopsAt c (name ++ (ds ++ z :: rest)) = false := by
          rw [← List.append_assoc, hz.stopsAt_append]
          exact hgoes
        exact nameRun_cons_eq_iff.mpr (.inr ⟨name, rfl, hgoes', ih hn⟩)
  cases h with
  | @tag name _ opener ho hn =>
    refine .tag ?_ (hname name ds hn hds)
    rw [opener?_append_cons hz.2, ho, ← List.append_assoc]
    rfl
  | interpolation ho =>
    refine .interpolation ?_
    rw [opener?_append_cons hz.2, ho]
    rfl

theorem commentBody?_append_close (h : commentBody? cs = none) : commentBody? (cs ++ commentClose) = some (cs, []) := by
  induction cs with
  | nil => rfl
  | cons c cs ih =>
    rw [commentBody?] at h
    split at h
    · cases h
    next hopen =>
    have hcs : commentClose.isPrefixOf? (c :: (cs ++ commentClose)) = none := by
      cases cs with
      | nil => simp [commentClose, Text.isPrefixOf?_cons_cons]
      | cons d cs =>
        have hlong : commentClose[(c :: d :: cs).length]? ≠ some '-' := by
          cases cs <;> simp [commentClose]
        have happend := Text.isPrefixOf?_append_cons hlong ['-', '>']
        rw [hopen] at happend
        exact happend
    rw [List.cons_append, commentBody?, hcs]
    dsimp only
    rw [ih (Option.map_eq_none_iff.mp h)]
    rfl

/-- What is wrong with a lexeme that is not a bracket that closes nothing can be mended behind it. -/
theorem exists_read_completion {failure : Failure} (h : Lexeme.read cs = .error failure)
    (hfault : failure.fault ≠ .bracketUnderflow) : ∃ t x, Lexeme.read (cs ++ t) = .ok (x, []) := by
  have hview := lexemeView cs
  generalize Lexeme.read cs = k at h hview
  cases hview with
  | text | comment => cases h
  | @openComment ds ho hbody =>
    refine ⟨commentClose, .comment ds, ?_⟩
    have hopener : opener? (cs ++ commentClose) = some (.comment, ds ++ commentClose) := by
      rw [append_of_opener? ho]
      rfl
    rw [Lexeme.read, hopener]
    dsimp only
    rw [commentBody?_append_close hbody]
  | @region e opening ds build hopens =>
    have hranOut : Markup.region e ds = .ranOut := by
      unfold readRegion at h
      split at h
      · cases h
      · cases h
        exact absurd rfl hfault
      · assumption
    obtain ⟨z, rest, r, hz, hds, hr⟩ := exists_region_completion hranOut
    exact ⟨z :: rest, build r, by rw [(hopens.append hz hds rest).read_eq, readRegion, hr]⟩

theorem endsOpener_of_closesBracket {c : Char} (h : closesBracket c = true) : EndsOpener c := by
  simp only [closesBracket, Bool.or_eq_true, beq_iff_eq] at h
  unfold EndsOpener
  rcases h with (rfl | rfl) | rfl
  · decide
  · decide
  · decide

theorem utf8Size_of_closesBracket {c : Char} (h : closesBracket c = true) : c.utf8Size = 1 := by
  simp only [closesBracket, Bool.or_eq_true, beq_iff_eq] at h
  rcases h with (rfl | rfl) | rfl
  · rfl
  · rfl
  · rfl

/-- A bracket that closes nothing is found whatever follows it. -/
theorem read_underflow {failure : Failure} (h : Lexeme.read cs = .error failure)
    (hfault : failure.fault = .bracketUnderflow) :
    ∃ c rest, cs = failure.before ++ c :: rest ∧ closesBracket c = true ∧
      ∀ t, Lexeme.read (cs ++ t) = .error failure := by
  have hview := lexemeView cs
  generalize Lexeme.read cs = k at h hview
  cases hview with
  | text | comment => cases h
  | openComment =>
    cases h
    cases hfault
  | @region e opening ds build hopens =>
    unfold readRegion at h
    split at h
    · cases h
    · next before hunderflow =>
      cases h
      obtain ⟨c, rest, rfl, hcloses, hrest⟩ := exists_of_region_underflow hunderflow
      refine ⟨c, rest, by rw [hopens.append_eq, List.append_assoc], hcloses, fun t => ?_⟩
      have hl : Decisive (before ++ [c]) := (decisive_cons (ne_slash_of_closesBracket hcloses) []).append before
      have hopens' := hopens.congr (endsOpener_of_closesBracket hcloses) hl (rest ++ t)
      have happend : cs ++ t = opening ++ (before ++ c :: (rest ++ t)) := by simp [hopens.append_eq]
      rw [happend, hopens'.read_eq, readRegion, hrest]
    · cases h
      cases hfault

/-! ### Templates -/

variable {source : String} {error : ScanError}

/-- Up to the lexeme that cannot be read, a template is scanned in the same way whatever follows it. -/
theorem Run.append_of_error {xs : List Lexeme} {failure : Failure} (h : Run cs xs rest)
    (hread : Lexeme.read rest = .error failure) (t : List Char) :
    Run (cs ++ t) xs (rest ++ t) ∧ Run (xs.flatMap Lexeme.chars) xs [] ∧ (opener? rest).isSome = true := by
  have hopener : (opener? rest).isSome = true := by
    rw [← Bool.not_eq_false]
    intro hnone
    rw [Option.isSome_eq_false_iff, Option.isNone_iff_eq_none] at hnone
    rw [Lexeme.read, hnone] at hread
    cases hread
  refine ⟨?_, ?_, hopener⟩
  · rw [h.append_eq, List.append_assoc]
    exact h.flatMap_append fun _ _ _ => .inr (opener?_isSome_append hopener t)
  · rw [← List.append_nil (xs.flatMap _)]
    exact h.flatMap_append fun _ _ _ => .inl rfl

theorem incomplete_of_tokenize (h : tokenize source = .error error) (hfault : error.fault ≠ .bracketUnderflow) :
    (∃ t ts, tokenize (source ++ t) = .ok ts) ∧
      ∃ front rest ts, splitBytes? error.span.start source.toList = some (front, rest) ∧
        error.span.stop = source.utf8ByteSize ∧ (opener? rest).isSome = true ∧
          tokenize (String.ofList front) = .ok ts := by
  obtain ⟨xs, rest, failure, hrun, hread, rfl⟩ := tokenize_eq_error_iff.mp h
  have hunclosed : failure.fault ≠ .bracketUnderflow := by
    intro heq
    rw [Failure.error, heq] at hfault
    exact hfault rfl
  have hspan : (failure.error (byteLength (xs.flatMap Lexeme.chars)) rest).span =
      ⟨byteLength (xs.flatMap Lexeme.chars), source.utf8ByteSize⟩ := by
    rw [← Text.byteLength_toList, hrun.append_eq, Text.byteLength_append]
    unfold Failure.error
    split
    · exact absurd ‹_› hunclosed
    · rfl
  obtain ⟨t, x, hx⟩ := exists_read_completion hread hunclosed
  obtain ⟨hwhole, hfront, hopener⟩ := hrun.append_of_error hread t
  refine ⟨⟨String.ofList t, tokensAt 0 (xs ++ [x]), tokenize_eq_ok_iff.mpr ⟨_, ?_, rfl⟩⟩, ?_⟩
  · rw [String.toList_append, String.toList_ofList]
    have hne : rest ≠ [] := by
      rintro rfl
      cases hopener
    exact run_append_iff.mpr ⟨_, hwhole, .cons (List.append_ne_nil_of_left_ne_nil hne t) hx (.nil [])⟩
  · rw [hspan]
    have htokens : tokenize (String.ofList (xs.flatMap Lexeme.chars)) = .ok (tokensAt 0 xs) :=
      tokenize_eq_ok_iff.mpr ⟨xs, by rwa [String.toList_ofList], rfl⟩
    exact ⟨_, rest, _, splitBytes?_eq_some_iff.mpr ⟨hrun.append_eq, rfl⟩, rfl, hopener, htokens⟩

theorem hopeless_of_tokenize (h : tokenize source = .error error) (hfault : error.fault = .bracketUnderflow) :
    (∀ t, tokenize (source ++ t) = .error error) ∧
      error.span.stop = error.span.start + 1 ∧
        ∃ c, slice? source.toList error.span = some [c] ∧ closesBracket c = true := by
  obtain ⟨xs, rest, failure, hrun, hread, rfl⟩ := tokenize_eq_error_iff.mp h
  have hunderflow : failure.fault = .bracketUnderflow := by
    unfold Failure.error at hfault
    split at hfault <;> exact hfault
  obtain ⟨c, after, hrest, hcloses, hread'⟩ := read_underflow hread hunderflow
  have herror (rest : List Char) (start : Nat) : failure.error start rest =
      ⟨.bracketUnderflow, ⟨start + byteLength failure.before, start + byteLength failure.before + 1⟩⟩ := by
    rw [Failure.error, hunderflow]
  rw [herror]
  refine ⟨fun t => ?_, rfl, c, slice?_eq_some_iff.mpr ⟨xs.flatMap Lexeme.chars ++ failure.before, after, ?_, ?_⟩,
    hcloses⟩
  · obtain ⟨hwhole, -, -⟩ := hrun.append_of_error hread t.toList
    refine tokenize_eq_error_iff.mpr ⟨xs, rest ++ t.toList, failure, ?_, hread' t.toList, by rw [herror]⟩
    rwa [String.toList_append]
  · rw [hrun.append_eq, hrest]
    simp
  · rw [Text.byteLength_append, Text.byteLength_cons, utf8Size_of_closesBracket hcloses]
    rfl

/-- An error that the end of the template causes can be mended behind it; the text from the error on then starts with an
opening symbol, and the text in front of it is a template. A bracket that closes nothing cannot be mended. -/
theorem tokenize_error_classifies (h : tokenize source = .error error) :
    (error.fault = .unclosedComment ∨ (∃ opening, error.fault = .unclosedTag opening) →
      (∃ t ts, tokenize (source ++ t) = .ok ts) ∧
        ∃ front rest ts, splitBytes? error.span.start source.toList = some (front, rest) ∧
          error.span.stop = source.utf8ByteSize ∧ (opener? rest).isSome = true ∧
          tokenize (String.ofList front) = .ok ts) ∧
    (error.fault = .bracketUnderflow →
      (∀ t, tokenize (source ++ t) = .error error) ∧ error.span.stop = error.span.start + 1 ∧
        ∃ c, slice? source.toList error.span = some [c] ∧ closesBracket c = true) := by
  refine ⟨fun hfault => incomplete_of_tokenize h ?_, hopeless_of_tokenize h⟩
  rcases hfault with hfault | ⟨opening, hfault⟩
  · rw [hfault]
    exact fun heq => nomatch heq
  · rw [hfault]
    exact fun heq => nomatch heq

/-- A string that breaks off behind a backslash can be gone on with, a bracket that closes nothing cannot. -/
theorem tokenize_error_classifies_string :
    (∃ t ts, tokenize ("a$\x7b('\\" ++ t) = .ok ts) ∧
      ∀ t, tokenize ("a$\x7bb]" ++ t) = .error ⟨.bracketUnderflow, ⟨4, 5⟩⟩ := by
  let text : Token := ⟨.text, ⟨0, 1⟩, "a", none, none, false, false⟩
  have hbreaks : scan "a$\x7b('\\" = ([text], some ⟨.unclosedTag "$\x7b", ⟨1, 6⟩⟩) := by
    decide +kernel
  have hcloses : scan "a$\x7bb]" = ([text], some ⟨.bracketUnderflow, ⟨4, 5⟩⟩) := by
    decide +kernel
  have hincomplete : tokenize "a$\x7b('\\" = .error ⟨.unclosedTag "$\x7b", ⟨1, 6⟩⟩ := by
    rw [tokenize, hbreaks]
  have hhopeless : tokenize "a$\x7bb]" = .error ⟨.bracketUnderflow, ⟨4, 5⟩⟩ := by
    rw [tokenize, hcloses]
  refine ⟨?_, ?_⟩
  · obtain ⟨hcompletion, -⟩ := (tokenize_error_classifies hincomplete).1 (.inr ⟨_, rfl⟩)
    exact hcompletion
  · obtain ⟨hsame, -⟩ := (tokenize_error_classifies hhopeless).2 rfl
    exact hsame

end TemplateSyntax.Markup
