import TemplateSyntax.Proofs.Markup.Lookahead

/-!
# Texts joined at lexemes

A lexeme is read in the same way in front of any text, only a run of text has to be ended by it
(`Lexeme.read_chars_append`). So a text that was cut into lexemes can be taken apart and put together again at the
seams: a run of lexemes stays one in front of any text that ends it (`Run.flatMap_append`).
-/

namespace TemplateSyntax.Markup

/-! ### Opening symbols -/

theorem append_of_opener? {cs rest : List Char} {o : Opener} (h : opener? cs = some (o, rest)) : cs = o.text ++ rest :=
  Text.append_of_firstMatch h

/-- A character that is in no opening symbol. -/
def EndsOpener (z : Char) : Prop :=
  ∀ o ∈ Opener.all, z ∉ o.text

theorem opener?_append_cons {z : Char} (hz : EndsOpener z) (front rest : List Char) :
    opener? (front ++ z :: rest) = (opener? front).map fun (o, after) => (o, after ++ z :: rest) :=
  Text.firstMatch_append_cons (fun o ho heq => hz o ho (List.mem_of_getElem? heq)) rest

theorem opener?_append_congr {z : Char} (hz : EndsOpener z) {o : Opener} {front after rest : List Char}
    (h : opener? (front ++ z :: rest) = some (o, after ++ z :: rest)) (rest' : List Char) :
    opener? (front ++ z :: rest') = some (o, after ++ z :: rest') := by
  rw [opener?_append_cons hz] at h ⊢
  obtain ⟨⟨o', after'⟩, hfront, heq⟩ := Option.map_eq_some_iff.mp h
  obtain ⟨rfl, happend⟩ := Prod.mk.inj heq
  rw [hfront, List.append_cancel_right happend]
  rfl

theorem opener?_isSome_append {cs : List Char} (h : (opener? cs).isSome = true) (rest : List Char) :
    (opener? (cs ++ rest)).isSome = true :=
  Text.firstMatch_isSome_append h rest

/-- An opening symbol has `<` or `$` in front and nowhere else. -/
theorem exists_of_opener?_isSome {cs : List Char} (h : (opener? cs).isSome = true) :
    ∃ z rest, cs = z :: rest ∧ ∀ o ∈ Opener.all, ∀ n, o.text[n + 1]? ≠ some z := by
  obtain ⟨⟨o, rest⟩, ho⟩ := Option.isSome_iff_exists.mp h
  have hall : (Opener.all.all fun o => o.text.head?.any fun z => Opener.all.all fun o' => !o'.text.tail.contains z) =
      true := by decide
  have hmem : o ∈ Opener.all := by
    obtain ⟨o', ho', heq⟩ := List.exists_of_findSome?_eq_some ho
    obtain ⟨rest', -, heq⟩ := Option.map_eq_some_iff.mp heq
    cases heq
    exact ho'
  obtain ⟨z, hz, htails⟩ := (Option.any_eq_true _ _).mp (List.all_eq_true.mp hall o hmem)
  obtain ⟨tail, htext⟩ := List.head?_eq_some_iff.mp hz
  refine ⟨z, tail ++ rest, by rw [append_of_opener? ho, htext, List.cons_append], fun o' ho' n heq => ?_⟩
  have htail := List.all_eq_true.mp htails o' ho'
  rw [← List.getElem?_tail] at heq
  rw [List.contains_iff_mem.mpr (List.mem_of_getElem? heq)] at htail
  cases htail

/-- What may follow a run of plain text: nothing, or an opening symbol. -/
def EndsText (rest : List Char) : Prop :=
  rest = [] ∨ (opener? rest).isSome = true

/-- Whether a symbol opens inside a run of text does not depend on what ends the run. -/
theorem EndsText.opener?_isSome {rest : List Char} (h : EndsText rest) (c : Char) (body : List Char) :
    (opener? (c :: (body ++ rest))).isSome = (opener? (c :: body)).isSome := by
  rcases h with rfl | h
  · rw [List.append_nil]
  · obtain ⟨z, after, rfl, hz⟩ := exists_of_opener?_isSome h
    have hfirst : opener? (c :: body ++ z :: after) = _ :=
      Text.firstMatch_append_cons (fun o ho => hz o ho body.length) after
    rw [← List.cons_append, hfirst, Option.isSome_map]
    rfl

/-! ### Texts, comments and names -/

/-- A run of text ends at an opening symbol or with the text. -/
theorem textRun_rest (cs : List Char) : EndsText (textRun cs).2 := by
  induction cs with
  | nil => exact .inl rfl
  | cons c cs ih =>
    rw [textRun]
    split
    · next ho => exact .inr ho
    · exact ih

theorem textRun_append_iff {rest : List Char} (h : EndsText rest) (body : List Char) :
    textRun (body ++ rest) = (body, rest) ↔ textRun body = (body, []) := by
  induction body with
  | nil =>
    rcases h with rfl | h
    · exact Iff.rfl
    · obtain ⟨z, after, rfl, -⟩ := exists_of_opener?_isSome h
      simp [textRun, h]
  | cons c body ih =>
    rw [List.cons_append, textRun, textRun, h.opener?_isSome]
    split
    · simp
    · simpa [Prod.ext_iff] using ih

theorem commentBody?_append_iff (body rest : List Char) :
    commentBody? (body ++ (commentClose ++ rest)) = some (body, rest) ↔
      commentBody? (body ++ commentClose) = some (body, []) := by
  induction body with
  | nil => exact ⟨fun _ => rfl, fun _ => rfl⟩
  | cons c body ih =>
    have hfront (rest : List Char) : commentClose.isPrefixOf? (c :: (body ++ (commentClose ++ rest))) =
        (commentClose.isPrefixOf? (c :: body ++ ['-', '-'])).map (· ++ '>' :: rest) := by
      have happend : c :: (body ++ (commentClose ++ rest)) = c :: body ++ ['-', '-'] ++ '>' :: rest := by
        simp [commentClose]
      rw [happend]
      refine Text.isPrefixOf?_append_cons ?_ rest
      rw [List.getElem?_eq_none (by simp [commentClose])]
      simp
    have hfront' := hfront []
    rw [List.append_nil] at hfront'
    rw [List.cons_append, List.cons_append, commentBody?, commentBody?, hfront, hfront']
    cases commentClose.isPrefixOf? (c :: body ++ ['-', '-']) with
    | some after => simp
    | none => simpa using ih

theorem nameRun_cons_eq_iff {c : Char} {cs name rest : List Char} :
    nameRun (c :: cs) = (name, rest) ↔
      (name = [] ∧ rest = c :: cs ∧ Enclosure.tag.stopsAt c cs = true) ∨
        ∃ tail, name = c :: tail ∧ Enclosure.tag.stopsAt c cs = false ∧ nameRun cs = (tail, rest) := by
  rw [nameRun]
  split
  · next hstops => simp [hstops, Prod.ext_iff, eq_comm]
  · next hgoes =>
    constructor
    · intro h
      obtain ⟨rfl, rfl⟩ := Prod.mk.inj h
      exact .inr ⟨_, rfl, by simpa using hgoes, rfl⟩
    · rintro (⟨-, -, hstops⟩ | ⟨tail, rfl, -, htail⟩)
      · exact absurd hstops hgoes
      · rw [htail]

theorem nameRun_append_iff {name l : List Char} (hl : Decisive l) (rest : List Char) :
    nameRun (name ++ (l ++ rest)) = (name, l ++ rest) ↔ nameRun (name ++ l) = (name, l) := by
  induction name with
  | nil =>
    obtain ⟨c, cs, rfl⟩ := List.exists_cons_of_ne_nil hl.1
    rw [List.nil_append, List.nil_append, List.cons_append, nameRun_cons_eq_iff, nameRun_cons_eq_iff, hl.stopsAt_append]
    simp
  | cons c name ih =>
    rw [List.cons_append, List.cons_append, nameRun_cons_eq_iff, nameRun_cons_eq_iff,
      stopsAt_congr (hl.head?_append name rest)]
    simp [ih]

/-! ### Lexemes -/

/-- In front of the region `ds` the text opens a tag or an interpolation. -/
inductive OpensRegion :
    (cs : List Char) → Enclosure → (opening : List Char) → (Region → Lexeme) → (ds : List Char) → Prop
  | tag {cs name ds : List Char} {opener : TagOpener} (ho : opener? cs = some (.tag opener, name ++ ds))
      (hn : nameRun (name ++ ds) = (name, ds)) : OpensRegion cs .tag (opener.text ++ name) (.tag opener name) ds
  | interpolation {cs ds : List Char} (ho : opener? cs = some (.interpolation, ds)) :
      OpensRegion cs .interpolation interpolationOpen .interpolation ds

variable {cs opening ds rest : List Char} {e : Enclosure} {build : Region → Lexeme} {x : Lexeme}

theorem OpensRegion.append_eq (h : OpensRegion cs e opening build ds) : cs = opening ++ ds := by
  cases h with
  | tag ho => rw [append_of_opener? ho, Opener.text, List.append_assoc]
  | interpolation ho => exact append_of_opener? ho

theorem OpensRegion.chars_eq (h : OpensRegion cs e opening build ds) (r : Region) :
    (build r).chars = opening ++ r.chars := by
  cases h <;> rfl

theorem OpensRegion.read_eq (h : OpensRegion cs e opening build ds) :
    Lexeme.read cs = readRegion e opening build ds := by
  cases h with
  | tag ho hn =>
    rw [Lexeme.read, ho]
    dsimp only
    rw [hn]
  | interpolation ho =>
    rw [Lexeme.read, ho]

/-- The opening does not depend on what follows a character that ends symbols and names. -/
theorem OpensRegion.congr {front : List Char} {z : Char} (h : OpensRegion cs e opening build (front ++ z :: rest))
    (hz : EndsOpener z) (hl : Decisive (front ++ [z])) (rest' : List Char) :
    OpensRegion (opening ++ (front ++ z :: rest')) e opening build (front ++ z :: rest') := by
  have hcs := h.append_eq
  cases h with
  | @tag name _ opener ho hn =>
    have hname (rest : List Char) : front ++ z :: rest = front ++ [z] ++ rest := List.append_cons ..
    refine .tag ?_ ?_
    · rw [hcs, ← List.append_assoc, ← List.append_assoc name] at ho
      rw [← List.append_assoc, ← List.append_assoc name]
      exact opener?_append_congr hz ho rest'
    · rw [hname, nameRun_append_iff hl] at hn
      rw [hname, nameRun_append_iff hl]
      exact hn
  | interpolation ho =>
    rw [hcs, ← List.append_assoc] at ho
    refine .interpolation ?_
    rw [← List.append_assoc]
    exact opener?_append_congr hz ho rest'

/-- What the lexeme at the start of a text can be. -/
inductive LexemeView (cs : List Char) : Except Failure (Lexeme × List Char) → Prop
  | text {body rest : List Char} (ho : opener? cs = none) (hrun : textRun cs = (body, rest)) :
      LexemeView cs (.ok (.text body, rest))
  | comment {ds body rest : List Char} (ho : opener? cs = some (.comment, ds))
      (hbody : commentBody? ds = some (body, rest)) : LexemeView cs (.ok (.comment body, rest))
  | openComment {ds : List Char} (ho : opener? cs = some (.comment, ds)) (hbody : commentBody? ds = none) :
      LexemeView cs (.error ⟨.unclosedComment, []⟩)
  | region {e : Enclosure} {opening ds : List Char} {build : Region → Lexeme} (h : OpensRegion cs e opening build ds) :
      LexemeView cs (readRegion e opening build ds)

theorem lexemeView (cs : List Char) : LexemeView cs (Lexeme.read cs) := by
  unfold Lexeme.read
  cases ho : opener? cs with
  | none => exact .text ho rfl
  | some r =>
    obtain ⟨o, ds⟩ := r
    cases o with
    | comment =>
      dsimp only
      split
      · next hbody => exact .comment ho hbody
      · next hbody => exact .openComment ho hbody
    | tag opener =>
      have happend := append_nameRun ds
      refine .region (.tag ?_ ?_)
      · rw [ho, happend]
      · rw [happend]
    | interpolation => exact .region (.interpolation ho)

def Lexeme.isText : Lexeme → Bool
  | .text _ => true
  | _ => false

theorem OpensRegion.isText_eq (h : OpensRegion cs e opening build ds) (r : Region) : (build r).isText = false := by
  cases h <;> rfl

/-- The last character of a region ends symbols. -/
theorem exists_chars_eq (r : Region) : ∃ front z, r.chars = front ++ [z] ∧ EndsOpener z := by
  have hclose : EndsOpener '>' := by unfold EndsOpener; decide
  have hbrace : EndsOpener '\x7d' := by unfold EndsOpener; decide
  unfold Region.chars
  cases r.marker with
  | selfClose => exact ⟨_, '>', List.append_cons .., hclose⟩
  | close => exact ⟨_, '>', rfl, hclose⟩
  | brace => exact ⟨_, '\x7d', rfl, hbrace⟩

theorem readRegion_eq_ok_iff :
    readRegion e opening build ds = .ok (x, rest) ↔ ∃ r, x = build r ∧ region e ds = .ended r rest := by
  unfold readRegion
  constructor
  · intro h
    split at h
    · next r _ hr =>
      cases h
      exact ⟨r, rfl, hr⟩
    · cases h
    · cases h
  · rintro ⟨r, rfl, hr⟩
    rw [hr]

/-- A lexeme is read in the same way in front of any text, if the text ends it. -/
theorem Lexeme.read_chars_append {c : Char} (h : Lexeme.read (c :: cs) = .ok (x, rest)) {rest' : List Char}
    (hrest : x.isText = true → EndsText rest') : Lexeme.read (x.chars ++ rest') = .ok (x, rest') := by
  have hview := lexemeView (c :: cs)
  have happend := append_of_read h
  have hne := chars_ne_nil h
  generalize Lexeme.read (c :: cs) = k at h hview
  cases hview with
  | openComment => cases h
  | @text body _ ho hrun =>
    cases h
    have hends := textRun_rest (c :: cs)
    rw [hrun] at hends
    obtain ⟨d, body, rfl⟩ := List.exists_cons_of_ne_nil hne
    have hstands : textRun (d :: body) = (d :: body, []) := by
      rwa [happend, Lexeme.chars, textRun_append_iff hends] at hrun
    have hopener : opener? (d :: body ++ rest') = none := by
      rw [happend, Lexeme.chars, ← Option.not_isSome_iff_eq_none, List.cons_append, hends.opener?_isSome] at ho
      rwa [← Option.not_isSome_iff_eq_none, List.cons_append, (hrest rfl).opener?_isSome]
    rw [Lexeme.chars, Lexeme.read, hopener]
    dsimp only
    rw [(textRun_append_iff (hrest rfl) _).mpr hstands]
  | @comment ds body _ ho hbody =>
    cases h
    rw [append_of_commentBody? hbody, List.append_assoc, commentBody?_append_iff] at hbody
    have hopener : opener? ((Lexeme.comment body).chars ++ rest') =
        some (.comment, body ++ (commentClose ++ rest')) := by
      rw [Lexeme.chars, List.append_assoc, List.append_assoc]
      rfl
    rw [Lexeme.read, hopener]
    dsimp only
    rw [(commentBody?_append_iff body rest').mpr hbody]
  | region hopens =>
    obtain ⟨r, rfl, hr⟩ := readRegion_eq_ok_iff.mp h
    obtain ⟨front, z, hchars, hz⟩ := exists_chars_eq r
    have hdecisive := decisive_chars r
    have hregion := ((isRegion_of_region hr).chars_append rest').region_eq
    have hsplit (rest : List Char) : r.chars ++ rest = front ++ z :: rest := by rw [hchars, List.append_assoc]; rfl
    rw [append_of_region hr, hsplit] at hopens
    have hopens' := hopens.congr hz (hchars ▸ hdecisive) rest'
    rw [← hsplit] at hopens'
    rw [hopens.chars_eq, List.append_assoc, hopens'.read_eq]
    exact readRegion_eq_ok_iff.mpr ⟨r, rfl, hregion⟩

theorem Lexeme.isText_of_read (h : Lexeme.read cs = .ok (x, rest)) : x.isText = !(opener? cs).isSome := by
  have hview := lexemeView cs
  generalize Lexeme.read cs = k at h hview
  cases hview with
  | text ho =>
    cases h
    rw [ho]
    rfl
  | comment ho =>
    cases h
    rw [ho]
    rfl
  | openComment => cases h
  | region hopens =>
    obtain ⟨r, rfl, -⟩ := readRegion_eq_ok_iff.mp h
    rw [hopens.isText_eq]
    cases hopens with
    | tag ho | interpolation ho =>
      rw [ho]
      rfl

theorem Lexeme.endsText_of_read (h : Lexeme.read cs = .ok (x, rest)) (hx : x.isText = true) : EndsText rest := by
  rw [isText_of_read h, Bool.not_eq_true', ← Bool.not_eq_true, Option.not_isSome_iff_eq_none] at hx
  rw [Lexeme.read, hx] at h
  cases h
  exact textRun_rest cs

/-! ### Runs of lexemes -/

variable {xs ys : List Lexeme}

/-- `xs` are the lexemes at the start of `cs`, and `rest` is what follows them. -/
inductive Run : (cs : List Char) → (xs : List Lexeme) → (rest : List Char) → Prop
  | nil (rest : List Char) : Run rest [] rest
  | cons {cs mid rest : List Char} {x : Lexeme} {xs : List Lexeme} (hne : cs ≠ []) (hx : Lexeme.read cs = .ok (x, mid))
      (h : Run mid xs rest) : Run cs (x :: xs) rest

theorem Run.append_eq (h : Run cs xs rest) : cs = xs.flatMap Lexeme.chars ++ rest := by
  induction h with
  | nil => rfl
  | cons hne hx _ ih => rw [Lexeme.append_of_read hx, ih, List.flatMap_cons, List.append_assoc]

theorem run_append_iff : Run cs (xs ++ ys) rest ↔ ∃ mid, Run cs xs mid ∧ Run mid ys rest := by
  induction xs generalizing cs with
  | nil =>
    constructor
    · exact fun h => ⟨cs, .nil cs, h⟩
    · rintro ⟨mid, h, hys⟩
      cases h
      exact hys
  | cons x xs ih =>
    constructor
    · intro h
      cases h with
      | cons hne hx h =>
        obtain ⟨mid, hxs, hys⟩ := ih.mp h
        exact ⟨mid, .cons hne hx hxs, hys⟩
    · rintro ⟨mid, h, hys⟩
      cases h with
      | cons hne hx hxs => exact .cons hne hx (ih.mpr ⟨mid, hxs, hys⟩)

theorem Run.lexemes_eq (h : Run cs xs rest) : lexemes cs = (xs ++ (lexemes rest).1, (lexemes rest).2) := by
  induction h with
  | nil => rfl
  | @cons cs mid rest x xs hne hx h ih =>
    obtain ⟨c, cs, rfl⟩ := List.exists_cons_of_ne_nil hne
    rw [lexemes_cons, hx]
    dsimp only
    rw [ih]
    rfl

/-- The lexemes of a text are a run to its end, or to where no lexeme can be read. -/
theorem run_lexemes (cs : List Char) :
    ((lexemes cs).2 = none ∧ Run cs (lexemes cs).1 []) ∨
      ∃ failure rest, (lexemes cs).2 = some (failure, rest) ∧ Run cs (lexemes cs).1 rest ∧
        Lexeme.read rest = .error failure := by
  induction hn : cs.length using Nat.strongRecOn generalizing cs with
  | ind n ih =>
    cases cs with
    | nil =>
      rw [lexemes]
      exact .inl ⟨rfl, .nil []⟩
    | cons c cs =>
      rw [lexemes_cons]
      cases hread : Lexeme.read (c :: cs) with
      | error failure => exact .inr ⟨failure, c :: cs, rfl, .nil _, hread⟩
      | ok r =>
        obtain ⟨x, rest⟩ := r
        obtain ⟨hnone, hrun⟩ | ⟨failure, rest', hsome, hrun, hfails⟩ :=
          ih rest.length (hn ▸ Lexeme.length_lt_of_read hread) rest rfl
        · exact .inl ⟨hnone, .cons (List.cons_ne_nil c cs) hread hrun⟩
        · exact .inr ⟨failure, rest', hsome, .cons (List.cons_ne_nil c cs) hread hrun, hfails⟩

theorem lexemes_eq_none_iff : lexemes cs = (xs, none) ↔ Run cs xs [] := by
  constructor
  · intro h
    obtain ⟨-, hrun⟩ | ⟨failure, rest, hsome, -⟩ := run_lexemes cs
    · rwa [h] at hrun
    · rw [h] at hsome
      cases hsome
  · intro h
    rw [h.lexemes_eq, lexemes, List.append_nil]

theorem lexemes_eq_some_iff {failure : Failure} :
    lexemes cs = (xs, some (failure, rest)) ↔ Run cs xs rest ∧ Lexeme.read rest = .error failure := by
  constructor
  · intro h
    obtain ⟨hnone, -⟩ | ⟨failure', rest', hsome, hrun, hfails⟩ := run_lexemes cs
    · rw [h] at hnone
      cases hnone
    · rw [h] at hsome hrun
      cases hsome
      exact ⟨hrun, hfails⟩
  · rintro ⟨hrun, hfails⟩
    obtain ⟨c, ds, rfl⟩ : ∃ c ds, rest = c :: ds := by
      cases rest with
      | nil => cases hfails
      | cons c ds => exact ⟨c, ds, rfl⟩
    rw [hrun.lexemes_eq, lexemes_cons, hfails, List.append_nil]

/-- A run stays a run in front of any text, if that text ends it. -/
theorem Run.flatMap_append (h : Run cs xs rest) {rest' : List Char}
    (hrest : ∀ x ∈ xs.getLast?, x.isText = true → EndsText rest') :
    Run (xs.flatMap Lexeme.chars ++ rest') xs rest' := by
  induction h with
  | nil => exact .nil rest'
  | @cons cs mid rest x xs hne hx h ih =>
    obtain ⟨c, cs, rfl⟩ := List.exists_cons_of_ne_nil hne
    have hxs : Run (xs.flatMap Lexeme.chars ++ rest') xs rest' := by
      refine ih fun y hy => hrest y ?_
      cases xs with
      | nil => cases hy
      | cons z zs => simpa using hy
    -- what ended the text ends it still: there are no two texts one behind the other
    have hends : x.isText = true → EndsText (xs.flatMap Lexeme.chars ++ rest') := by
      intro htext
      cases h with
      | nil => exact hrest x rfl htext
      | @cons _ _ _ y ys hne' hy _ =>
        have hopener := (Lexeme.endsText_of_read hx htext).resolve_left hne'
        cases hxs with
        | cons _ hy' _ =>
          refine .inr ?_
          rw [← Bool.not_eq_false, ← Bool.not_eq_true', ← Lexeme.isText_of_read hy', Lexeme.isText_of_read hy, hopener]
          decide
    rw [List.flatMap_cons, List.append_assoc]
    refine .cons ?_ (Lexeme.read_chars_append hx hends) hxs
    exact List.append_ne_nil_of_left_ne_nil (Lexeme.chars_ne_nil hx) _

end TemplateSyntax.Markup
