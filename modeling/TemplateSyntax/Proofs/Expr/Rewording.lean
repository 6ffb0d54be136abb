import Mathlib.Data.List.TakeWhile
import TemplateSyntax.Proofs.Expr.Alike
import TemplateSyntax.Proofs.Expr.Steps

/-!
# Putting comparisons in words

`a > b` may be written `a gt b`, which keeps `>` free to end the tag. A word is a name for the reader of tokens, though,
and behind a name a period is an access to a field. So where a number that begins with its period follows the
comparison, as in `a < .5`, the word makes the text wrong (`parseAt_word_fraction`); everywhere else it means the same
(`parseAt_reword_iff`).
-/

namespace TemplateSyntax.Expr

open Text (isBlank byteLength)

/-! ### Texts with words -/

namespace Token

/-- The token is a comparison that is to be put in words. -/
def isWorded (pick : Token → Bool) (t : Token) : Bool :=
  pick t && t.kind.word?.isSome

/-- The token as it is to be written. A word has a space on each side. -/
def reworded (pick : Token → Bool) (t : Token) : List Char :=
  match t.kind.word? with
  | some w => if pick t then ' ' :: (w.toList ++ [' ']) else t.text.toList
  | none => t.text.toList

/-- A number that begins with its period. -/
def isFraction (t : Token) : Bool :=
  match t.kind with
  | .number _ => t.text.toList.head? == some '.'
  | _ => false

end Token

namespace Cursor

/-- The text in front of the cursor, with words for the comparisons that are picked. -/
def reword (pick : Token → Bool) (c : Cursor) : List Char :=
  match _h : c.next with
  | (.error _, _) => c.rest
  | (.ok t, c') =>
    if _ht : t.kind = .eof then c.rest
    else c.rest.takeWhile isBlank ++ (t.reworded pick ++ c'.reword pick)
termination_by c.rest.length
decreasing_by exact length_lt_of_next _h _ht

theorem reword_eq (pick : Token → Bool) (c : Cursor) :
    c.reword pick =
      match c.next with
      | (.error _, _) => c.rest
      | (.ok t, c') =>
        if t.kind = .eof then c.rest else c.rest.takeWhile isBlank ++ (t.reworded pick ++ c'.reword pick) := by
  rw [reword]
  split <;> simp_all

theorem reword_of_next {c c' : Cursor} {t : Token} (h : c.next = (.ok t, c')) (ht : t.kind ≠ .eof)
    (pick : Token → Bool) :
    c.reword pick = c.rest.takeWhile isBlank ++ (t.reworded pick ++ c'.reword pick) := by
  rw [reword_eq, h]
  exact if_neg ht

theorem reword_of_next_eof {c c' : Cursor} {t : Token} (h : c.next = (.ok t, c')) (ht : t.kind = .eof)
    (pick : Token → Bool) : c.reword pick = c.rest := by
  rw [reword_eq, h]
  exact if_pos ht

end Cursor

/-- The text with words for the comparisons that are picked. -/
def reword (pick : Token → Bool) (source : String) (base : Nat) : String :=
  String.ofList ((Cursor.ofSource source base).reword pick)

/-- No comparison that is put in words has a number that begins with its period behind it. -/
def Speakable (pick : Token → Bool) (ts : List Token) : Prop :=
  ts.IsChain fun t u => t.isWorded pick = true → u.isFraction = false

instance (pick : Token → Bool) (ts : List Token) : Decidable (Speakable pick ts) :=
  inferInstanceAs (Decidable (ts.IsChain _))

/-- The tokens may be written with words behind a word, or behind none. -/
def Fits (pick : Token → Bool) (worded : Bool) (ts : List Token) : Prop :=
  (worded = true → ∀ t ∈ ts.head?, t.isFraction = false) ∧ Speakable pick ts

theorem fits_nil (pick : Token → Bool) (worded : Bool) : Fits pick worded [] :=
  ⟨fun _ _ ht => (by cases ht), .nil⟩

theorem fits_cons_iff {pick : Token → Bool} {worded : Bool} {t : Token} {ts : List Token} :
    Fits pick worded (t :: ts) ↔ (worded = true → t.isFraction = false) ∧ Fits pick (t.isWorded pick) ts := by
  unfold Fits Speakable
  rw [List.isChain_cons]
  constructor
  · rintro ⟨hw, hhead, hchain⟩
    exact ⟨fun h => hw h t rfl, fun h u hu => hhead u hu h, hchain⟩
  · rintro ⟨hw, hhead, hchain⟩
    refine ⟨fun h u hu => ?_, fun u hu h => hhead h u hu, hchain⟩
    cases hu
    exact hw h

/-! ### Steps of the cursor -/

namespace Cursor

variable {c c' : Cursor} {t : Token}

/-- A text without words is the same text. -/
theorem reword_none (c : Cursor) : c.reword (fun _ => false) = c.rest := by
  induction hn : c.rest.length using Nat.strongRecOn generalizing c with
  | ind n ih =>
    rw [reword_eq]
    split
    · rfl
    next t c' hnext =>
    split
    · rfl
    next ht =>
    obtain ⟨d, ds, hrest, -, htext, -⟩ := exists_of_next hnext ht
    have hsame : t.reworded (fun _ => false) = t.text.toList := by
      unfold Token.reworded
      split <;> rfl
    rw [hsame, ih c'.rest.length (hn ▸ length_lt_of_next hnext ht) c' rfl, htext]
    exact hrest.symm

theorem reworded_of_isWorded {pick : Token → Bool} (h : t.isWorded pick = true) :
    ∃ w, t.kind.word? = some w ∧ t.reworded pick = ' ' :: (w.toList ++ [' ']) := by
  rw [Token.isWorded, Bool.and_eq_true, Option.isSome_iff_exists] at h
  obtain ⟨hpick, w, hw⟩ := h
  refine ⟨w, hw, ?_⟩
  rw [Token.reworded, hw]
  exact if_pos hpick

theorem reworded_of_not_isWorded {pick : Token → Bool} (h : t.isWorded pick = false) :
    t.reworded pick = t.text.toList := by
  rw [Token.isWorded, Bool.and_eq_false_iff] at h
  unfold Token.reworded
  split
  · next hw =>
    rw [hw] at h
    exact if_neg (Bool.eq_false_iff.mp (h.resolve_right (by simp)))
  · rfl

/-- A text with words goes on like the text itself, or with the space in front of a word. -/
theorem loosens_reword (pick : Token → Bool) (c : Cursor) : Loosens c.rest (c.reword pick) := by
  rw [reword_eq]
  split
  · exact .inl rfl
  next t c' hnext =>
  split
  · exact .inl rfl
  next ht =>
  obtain ⟨d, ds, hrest, -, htext, -⟩ := exists_of_next hnext ht
  generalize c.rest.takeWhile isBlank = blanks at hrest ⊢
  rw [hrest]
  cases blanks with
  | cons b blanks => exact .inl rfl
  | nil =>
    cases hworded : t.isWorded pick with
    | true =>
      obtain ⟨w, -, hw⟩ := reworded_of_isWorded hworded
      rw [hw]
      refine .inr ?_
      rintro c ⟨⟩
      exact severs_of_isBlank (by decide)
    | false =>
      rw [reworded_of_not_isWorded hworded, htext]
      exact .inl rfl

/-! ### Tokens of a text with words -/

/-- The number that a word would spoil. -/
theorem startsNumber_of_isFraction (ht : t.isFraction = true) {d : Char} {ds rest : List Char} {afterOperand : Bool}
    (htext : t.text.toList = d :: ds) (hread : readToken afterOperand d (ds ++ rest) = ⟨d :: ds, rest, .ok t.kind⟩) :
    d = '.' ∧ afterOperand = false ∧ ∀ rest', startsNumber false d (ds ++ rest') = true := by
  unfold Token.isFraction at ht
  split at ht
  · next value hkind =>
    rw [htext, beq_iff_eq] at ht
    obtain rfl := Option.some.inj ht
    rw [hkind] at hread
    have hstart : startsNumber afterOperand '.' (ds ++ rest) = true := by
      cases hs : startsNumber afterOperand '.' (ds ++ rest) with
      | true => rfl
      | false =>
        -- without a digit behind it a period is a punctuator
        rw [readToken, hs, if_neg Bool.false_ne_true, if_neg (by decide), isNameStart_period,
          if_neg Bool.false_ne_true] at hread
        have hresult : (readPunctuator '.' (ds ++ rest)).result = .ok (.number value) := by rw [hread]
        unfold readPunctuator at hresult
        split at hresult <;> cases hresult
    obtain ⟨-, hdigit, hbehind⟩ := (startsNumber_iff.mp hstart).resolve_left (by decide)
    rw [readToken, if_pos hstart] at hread
    obtain ⟨n, hn, hused, -⟩ := exists_proper_of_readNumber (.inr ⟨rfl, hdigit⟩) (by rw [hread])
    rw [hread] at hused
    exact ⟨rfl, hbehind, fun rest' => startsNumber_of_proper hn hused.symm rest'⟩
  · cases ht

/-- Behind a word a number starts where it did, unless it begins with its period. -/
theorem startsNumber_behind_word {worded afterOperand : Bool} (hw : worded = true → t.isFraction = false) {d : Char}
    {ds rest : List Char} (htext : t.text.toList = d :: ds)
    (hread : readToken afterOperand d (ds ++ rest) = ⟨d :: ds, rest, .ok t.kind⟩) :
    startsNumber (afterOperand || worded) d (ds ++ rest) = startsNumber afterOperand d (ds ++ rest) := by
  cases worded with
  | false => rw [Bool.or_false]
  | true =>
    have hfraction := hw rfl
    by_cases hperiod : d = '.'
    · subst hperiod
      have hbehind : startsNumber (afterOperand || true) '.' (ds ++ rest) = false := by
        rw [Bool.or_true, ← Bool.not_eq_true, startsNumber_iff]
        simp
      cases hs : startsNumber afterOperand '.' (ds ++ rest) with
      | false => exact hbehind
      | true =>
        -- such a number is just what the word must not precede
        obtain ⟨-, hdigit, -⟩ := (startsNumber_iff.mp hs).resolve_left (by decide)
        rw [readToken, if_pos hs] at hread
        obtain ⟨n, -, -, hkind⟩ := exists_proper_of_readNumber (.inr ⟨rfl, hdigit⟩) (by rw [hread])
        rw [Token.isFraction, hkind, htext] at hfraction
        cases hfraction
    · rw [startsNumber_of_ne_period hperiod, startsNumber_of_ne_period hperiod]

variable {pick : Token → Bool} {worded : Bool}

/-- A token that is kept is read again behind a word, if it is not the number that the word would spoil. -/
theorem tokens_reword_kept (h : c.next = (.ok t, c')) (ht : t.kind ≠ .eof) (hkept : t.isWorded pick = false)
    (hw : worded = true → t.isFraction = false) (offset : Nat) :
    ∃ t' offset',
      (⟨c.reword pick, offset, c.afterOperand || worded⟩ : Cursor).tokens =
        ((⟨c'.reword pick, offset', c'.afterOperand⟩ : Cursor).tokens.map fun (ts, stop) => (t' :: ts, stop)) ∧
      t'.kind = t.kind ∧ t'.text = t.text := by
  have hstart : ∀ d ds, t.text.toList = d :: ds →
      startsNumber (c.afterOperand || worded) d (ds ++ c'.rest) = startsNumber c.afterOperand d (ds ++ c'.rest) := by
    intro d ds htext
    obtain ⟨d', ds', -, -, htext', hread, -⟩ := exists_of_next h ht
    obtain ⟨rfl, rfl⟩ := List.cons.inj (htext.symm.trans htext')
    exact startsNumber_behind_word hw htext hread
  have hnext := next_loosens h ht hstart (fun _ => List.mem_takeWhile_imp (l := c.rest)) (loosens_reword pick c') offset
  rw [reword_of_next h ht, reworded_of_not_isWorded hkept, tokens_of_next hnext ht]
  exact ⟨_, _, rfl, rfl, rfl⟩

/-- A word is read as a name, behind which no number begins with its period. -/
theorem tokens_reword_worded (h : c.next = (.ok t, c')) (ht : t.kind ≠ .eof) (hworded : t.isWorded pick = true)
    (afterOperand : Bool) (offset : Nat) :
    ∃ t' offset' w,
      (⟨c.reword pick, offset, afterOperand⟩ : Cursor).tokens =
        ((⟨c'.reword pick, offset', true⟩ : Cursor).tokens.map fun (ts, stop) => (t' :: ts, stop)) ∧
      t'.kind = .identifier w ∧ t.kind.word? = some w := by
  obtain ⟨w, hw, hreworded⟩ := reworded_of_isWorded hworded
  obtain ⟨d, ds, hlist, hd, hread⟩ : ∃ d ds, w.toList = d :: ds ∧ isBlank d = false ∧ ∀ rest,
      readToken afterOperand d (ds ++ ' ' :: rest) = ⟨d :: ds, ' ' :: rest, .ok (.identifier w)⟩ := by
    unfold TokenKind.word? at hw
    split at hw <;> cases hw <;> refine ⟨_, _, rfl, by decide, fun rest => ?_⟩ <;>
      cases afterOperand <;> rfl
  have hblank : isBlank ' ' = true := by decide
  rw [reword_of_next h ht, hreworded, tokens_blanks fun _ => List.mem_takeWhile_imp, List.cons_append,
    tokens_blank hblank, hlist, List.append_assoc, List.cons_append, List.singleton_append,
    tokens_of_readToken hd (hread _), tokens_blank hblank]
  exact ⟨_, _, w, rfl, rfl, hw⟩

theorem tokens_reword_step (h : c.next = (.ok t, c')) (ht : t.kind ≠ .eof) (hw : worded = true → t.isFraction = false)
    (offset : Nat) :
    ∃ t' offset',
      (⟨c.reword pick, offset, c.afterOperand || worded⟩ : Cursor).tokens =
        ((⟨c'.reword pick, offset', c'.afterOperand || t.isWorded pick⟩ : Cursor).tokens.map fun (ts, stop) =>
          (t' :: ts, stop)) ∧ t.Alike t' := by
  cases hworded : t.isWorded pick with
  | true =>
    obtain ⟨t', offset', w, htokens, hkind, hword⟩ :=
      tokens_reword_worded h ht hworded (c.afterOperand || worded) offset
    refine ⟨t', offset', ?_, .worded hword hkind⟩
    rw [htokens, Bool.or_true]
  | false =>
    obtain ⟨t', offset', htokens, hkind, htext⟩ := tokens_reword_kept h ht hworded hw offset
    refine ⟨t', offset', ?_, .same hkind htext⟩
    rw [htokens, Bool.or_false]

private theorem exists_of_map_cons {answer : Except ExprError (List Token × Nat)} {ts : List Token} {stop : Nat}
    (h : (answer.map fun (ts, stop) => (t :: ts, stop)) = .ok (ts, stop)) :
    ∃ us, answer = .ok (us, stop) ∧ t :: us = ts := by
  cases answer with
  | error e => cases h
  | ok p =>
    cases h
    exact ⟨p.1, rfl, rfl⟩

theorem isBlank_of_isDigit {d : Char} (h : d.isDigit = true) : isBlank d = false := by
  refine Bool.eq_false_iff.mpr fun hblank => ?_
  have hpart := (ends_of_isBlank hblank).1
  rw [isNamePart, h, Bool.or_true] at hpart
  cases hpart

theorem exists_number_of_tokens {d : Char} (hd : d.isDigit = true) {ds : List Char} {offset stop : Nat}
    {afterOperand : Bool} {ts : List Token} (h : (⟨d :: ds, offset, afterOperand⟩ : Cursor).tokens = .ok (ts, stop)) :
    ∃ t us value, ts = t :: us ∧ t.kind = .number value := by
  have hrest : (d :: ds).dropWhile isBlank = d :: ds := List.dropWhile_cons_of_neg (by simp [isBlank_of_isDigit hd])
  rcases tokens_eq_ok h with ⟨hnil, -⟩ | ⟨e, es, kind, us, hcons, hkind, -, hts⟩
  · rw [hrest] at hnil
    cases hnil
  · obtain ⟨rfl, rfl⟩ := List.cons.inj (hrest.symm.trans hcons)
    rw [readToken, if_pos (startsNumber_iff.mpr (.inl hd))] at hkind
    obtain ⟨n, -, -, rfl⟩ := exists_proper_of_readNumber (.inl hd) hkind
    exact ⟨_, us, n.value, hts, rfl⟩

/-- Behind a word the period of a number is an access to a field, but no name follows it. -/
theorem not_fieldsNamed_of_isFraction (h : c.next = (.ok t, c')) (ht : t.kind ≠ .eof)
    (hfraction : t.isFraction = true) {offset stop : Nat} {ts : List Token}
    (hts : (⟨c.reword pick, offset, true⟩ : Cursor).tokens = .ok (ts, stop)) : ¬FieldsNamed ts := by
  obtain ⟨d, ds, -, -, htext, hread, -⟩ := exists_of_next h ht
  obtain ⟨rfl, -, hstart⟩ := startsNumber_of_isFraction hfraction htext hread
  have hkept : t.isWorded pick = false := by
    unfold Token.isFraction at hfraction
    split at hfraction
    · next hkind =>
      have hword : t.kind.word? = none := by
        rw [hkind]
        rfl
      rw [Token.isWorded, hword, Option.isSome_none, Bool.and_false]
    · cases hfraction
  obtain ⟨-, hdigit, -⟩ := (startsNumber_iff.mp (hstart (c'.reword pick))).resolve_left (by decide)
  rw [reword_of_next h ht, reworded_of_not_isWorded hkept, htext, tokens_blanks fun _ => List.mem_takeWhile_imp,
    List.cons_append] at hts
  generalize ds ++ c'.reword pick = cs at hts hdigit
  obtain ⟨e, he, hedigit⟩ := (Option.any_eq_true _ _).mp hdigit
  obtain ⟨es, rfl⟩ := List.head?_eq_some_iff.mp he
  rw [tokens_of_readToken (by decide) (readToken_period _)] at hts
  obtain ⟨us, hus, rfl⟩ := exists_of_map_cons hts
  obtain ⟨u, vs, value, rfl, hkind⟩ := exists_number_of_tokens hedigit hus
  intro hnamed
  obtain ⟨name, hname⟩ := (List.isChain_cons_cons.mp hnamed).1 rfl
  rw [hkind] at hname
  cases hname

/-- The tokens of a text with words. They are alike if no number is spoiled, and otherwise some period has no name
behind it. -/
theorem tokens_reword {ts : List Token} {stop : Nat} (hts : c.tokens = .ok (ts, stop)) (offset : Nat) :
    (Fits pick worded ts → ∃ ts' stop',
      (⟨c.reword pick, offset, c.afterOperand || worded⟩ : Cursor).tokens = .ok (ts', stop') ∧
        List.Forall₂ Token.Alike ts ts') ∧
    ∀ ts' stop', (⟨c.reword pick, offset, c.afterOperand || worded⟩ : Cursor).tokens = .ok (ts', stop') →
      FieldsNamed ts' → Fits pick worded ts := by
  induction hn : c.rest.length using Nat.strongRecOn generalizing c ts worded offset with
  | ind n ih =>
    rw [tokens_eq] at hts
    split at hts
    · cases hts
    next t c' hnext =>
    split at hts
    · next ht =>
      cases hts
      have hrest := List.takeWhile_append_dropWhile (p := isBlank) (l := c.rest)
      rw [dropWhile_of_next_eof hnext ht] at hrest
      have htokens := tokens_blanks (fun _ => List.mem_takeWhile_imp (l := c.rest)) [] offset (c.afterOperand || worded)
      rw [hrest, tokens_nil] at htokens
      rw [reword_of_next_eof hnext ht]
      exact ⟨fun _ => ⟨[], _, htokens, .nil⟩, fun _ _ _ _ => fits_nil pick worded⟩
    next ht =>
    split at hts
    · cases hts
    next us stop' hus =>
    cases hts
    have hlt : c'.rest.length < n := hn ▸ length_lt_of_next hnext ht
    refine ⟨fun hfits => ?_, fun ts' stop'' hts' hnamed => ?_⟩
    · obtain ⟨hw, hfits⟩ := fits_cons_iff.mp hfits
      obtain ⟨t', offset', hstep, halike⟩ := tokens_reword_step hnext ht hw offset
      obtain ⟨us', stop'', hus', halikes⟩ := (ih _ hlt hus offset' rfl).1 hfits
      exact ⟨t' :: us', stop'', by rw [hstep, hus']; rfl, .cons halike halikes⟩
    · have hw : worded = true → t.isFraction = false := by
        rintro rfl
        refine Bool.eq_false_iff.mpr fun hfraction => ?_
        rw [Bool.or_true] at hts'
        exact not_fieldsNamed_of_isFraction hnext ht hfraction hts' hnamed
      refine fits_cons_iff.mpr ⟨hw, ?_⟩
      obtain ⟨t', offset', hstep, -⟩ := tokens_reword_step hnext ht hw offset
      rw [hstep] at hts'
      obtain ⟨us', hus', rfl⟩ := exists_of_map_cons hts'
      exact (ih _ hlt hus offset' rfl).2 us' _ hus' hnamed.tail

end Cursor

/-! ### Parameters with words -/

theorem reword_none (source : String) (base : Nat) : reword (fun _ => false) source base = source := by
  rw [reword, Cursor.reword_none, Cursor.ofSource, String.ofList_toList]

/-- A text that is accepted stays so with words for any of its comparisons, as long as no number that begins with its
period follows one of them, and then it means the same. -/
theorem parseAt_reword_iff {source : String} {base stop : Nat} {ts : List Token} {r : Option Expr}
    (h : parseAt source base = .ok r) (hts : (Cursor.ofSource source base).tokens = .ok (ts, stop))
    (pick : Token → Bool) :
    ((∃ r', parseAt (reword pick source base) base = .ok r') ↔ Speakable pick ts) ∧
      ∀ r', parseAt (reword pick source base) base = .ok r' → r'.map erase = r.map erase := by
  obtain ⟨ts, stop, es, hts', hes, rfl⟩ := parseAt_eq_ok_iff.mp h
  cases hts.symm.trans hts'
  have hsource : Cursor.ofSource (reword pick source base) base =
      ⟨(Cursor.ofSource source base).reword pick, base, (Cursor.ofSource source base).afterOperand || false⟩ := by
    rw [reword, Cursor.ofSource, String.toList_ofList]
    rfl
  obtain ⟨hforward, hback⟩ := @Cursor.tokens_reword _ pick false ts stop hts base
  rw [← hsource] at hforward hback
  have hspeakable {r' : Option Expr} (h' : parseAt (reword pick source base) base = .ok r') : Speakable pick ts := by
    obtain ⟨ts', stop', es', hts'', hes', -⟩ := parseAt_eq_ok_iff.mp h'
    exact (hback ts' stop' hts'' hes'.fieldsNamed).2
  have hsame (hspeak : Speakable pick ts) :
      ∃ r', parseAt (reword pick source base) base = .ok r' ∧ r'.map erase = (ofItems es).map erase := by
    obtain ⟨ts', stop', hts'', halike⟩ := hforward ⟨fun hfalse => absurd hfalse Bool.false_ne_true, hspeak⟩
    obtain ⟨es', herases, hes'⟩ := hes.exists_alike halike
    exact ⟨ofItems es', parseAt_eq_ok_iff.mpr ⟨ts', stop', es', hts'', hes', rfl⟩, map_erase_ofItems herases⟩
  refine ⟨⟨?_, fun hspeak => ?_⟩, fun r' h' => ?_⟩
  · rintro ⟨r', h'⟩
    exact hspeakable h'
  · obtain ⟨r', h', -⟩ := hsame hspeak
    exact ⟨r', h'⟩
  · obtain ⟨r'', h'', herase⟩ := hsame (hspeakable h')
    cases h'.symm.trans h''
    exact herase

/-- Only the comparison in front of the number has to stay as it is. -/
theorem parseAt_reword_chain :
    ∃ r r', parseAt "a > b < .5" 0 = .ok r ∧ parseAt "a  gt  b < .5" 0 = .ok r' ∧ r'.map erase = r.map erase := by
  let pick (t : Token) : Bool := t.text == ">"
  have hsource : (parseAt "a > b < .5" 0).toOption.any (fun _ => true) = true := by decide +kernel
  obtain ⟨r, hr, -⟩ := exists_eq_ok_of_any hsource
  have htokens : (Cursor.ofSource "a > b < .5" 0).tokens.toOption.any (fun (ts, _) => decide (Speakable pick ts)) =
      true := by decide +kernel
  obtain ⟨⟨ts, stop⟩, hts, hspeak⟩ := exists_eq_ok_of_any htokens
  have hreword : reword pick "a > b < .5" 0 = "a  gt  b < .5" := by decide +kernel
  obtain ⟨hiff, hsame⟩ := parseAt_reword_iff hr hts pick
  rw [hreword] at hiff hsame
  obtain ⟨r', hr'⟩ := hiff.mpr (of_decide_eq_true hspeak)
  exact ⟨r, r', hr, hr', hsame r' hr'⟩

/-- Behind the word the period of the number is read as an access to a field. -/
theorem parseAt_word_fraction :
    (∃ r, parseAt "a < .5" 0 = .ok r) ∧ reword (fun _ => true) "a < .5" 0 = "a  lt  .5" ∧
      parseAt "a  lt  .5" 0 = .error ⟨.unexpectedToken ".", ⟨7, 8⟩⟩ := by
  have hsource : (parseAt "a < .5" 0).toOption.any (fun _ => true) = true := by decide +kernel
  obtain ⟨r, hr, -⟩ := exists_eq_ok_of_any hsource
  refine ⟨⟨r, hr⟩, by decide +kernel, ?_⟩
  have herror : (match parseAt "a  lt  .5" 0 with | .ok _ => none | .error e => some e) =
      some ⟨.unexpectedToken ".", ⟨7, 8⟩⟩ := by decide +kernel
  cases h : parseAt "a  lt  .5" 0 with
  | ok r =>
    rw [h] at herror
    cases herror
  | error e =>
    rw [h] at herror
    exact congrArg Except.error (Option.some.inj herror)

end TemplateSyntax.Expr
