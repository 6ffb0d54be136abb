import TemplateSyntax.Proofs.Expr.Spelling

/-!
# Tokens in other surroundings

Each token ends where the next character cannot go on with it. So it is read in the same way if the text behind it is
changed but goes on with the same character, or with one that severs all tokens, as blanks and separators do
(`readToken_loosens`). What stands in front of a token matters only for a period before a digit, and not for its
characters alone (`readToken_alone`).
-/

namespace TemplateSyntax.Expr

open Text (isBlank firstMatch firstMatch_append firstMatch_append_cons)

/-! ### Characters that end every token -/

/-- The character goes on with no token in front of it. -/
structure Severs (c : Char) : Prop where
  not_isNamePart : isNamePart c = false
  ne_period : c ≠ '.'
  getElem?_ne : ∀ (p : Punctuator) (n : Nat), p.text[n + 1]? ≠ some c

theorem ends_of_isBlank {c : Char} (h : isBlank c = true) : isNamePart c = false ∧ c ≠ '.' := by
  have hmem : c.toNat ∈ [0x9, 0xA, 0xB, 0xC, 0xD, 0x20, 0x85, 0xA0, 0x1680, 0x2000, 0x2001, 0x2002, 0x2003, 0x2004,
      0x2005, 0x2006, 0x2007, 0x2008, 0x2009, 0x200A, 0x2028, 0x2029, 0x202F, 0x205F, 0x3000] := by
    simp only [isBlank, Bool.or_eq_true, Bool.and_eq_true, decide_eq_true_eq, beq_iff_eq] at h
    simp only [List.mem_cons, List.not_mem_nil, or_false]
    omega
  have hofNat : isNamePart (Char.ofNat c.toNat) = false ∧ Char.ofNat c.toNat ≠ '.' := by
    generalize c.toNat = n at hmem
    revert n
    decide +kernel
  rwa [Char.ofNat_toNat] at hofNat

theorem getElem?_text_ne_of_isBlank {c : Char} (h : isBlank c = true) (p : Punctuator) (n : Nat) :
    p.text[n]? ≠ some c := by
  intro hc
  have hblank : p.text.any isBlank = false := by cases p <;> rfl
  exact List.any_eq_false.mp hblank c (List.mem_of_getElem? hc) h

theorem severs_of_isBlank {c : Char} (h : isBlank c = true) : Severs c :=
  ⟨(ends_of_isBlank h).1, (ends_of_isBlank h).2, fun p n => getElem?_text_ne_of_isBlank h p (n + 1)⟩

/-- No punctuator of two characters ends with a separator. -/
theorem severs_separator {c : Char} (h : c = ';' ∨ c = ',') : Severs c := by
  have hpunctuator (p : Punctuator) : p.text.tail.all (fun d => d ≠ ';' ∧ d ≠ ',') = true := by cases p <;> rfl
  refine ⟨?_, ?_, fun p n hc => ?_⟩
  · rcases h with rfl | rfl <;> decide
  · rcases h with rfl | rfl <;> decide
  · rw [← List.getElem?_tail] at hc
    have hne := of_decide_eq_true (List.all_eq_true.mp (hpunctuator p) c (List.mem_of_getElem? hc))
    exact h.elim hne.1 hne.2

/-- Behind a token the text goes on with the same character as before, or with one that ends every token, or not at
all. -/
def Loosens (rest rest' : List Char) : Prop :=
  rest'.head? = rest.head? ∨ ∀ c ∈ rest'.head?, Severs c

theorem Loosens.forall_head? {P : Char → Prop} {rest rest' : List Char} (h : Loosens rest rest')
    (hrest : ∀ c ∈ rest.head?, P c) (hsevers : ∀ c, Severs c → P c) : ∀ c ∈ rest'.head?, P c := by
  intro c hc
  rcases h with h | h
  · rw [h] at hc
    exact hrest c hc
  · exact hsevers c (h c hc)

theorem loosens_nil (rest : List Char) : Loosens rest [] :=
  .inr fun _ hc => nomatch hc

/-- What follows the text severs the token in front of it, if the text itself is empty. -/
theorem loosens_append {c : Char} (h : Severs c) (rest more : List Char) : Loosens rest (rest ++ c :: more) := by
  cases rest with
  | nil =>
    refine .inr ?_
    rintro d ⟨⟩
    exact h
  | cons d rest => exact .inl rfl

/-! ### The readers -/

/-- No character that could go on with a number follows it. -/
theorem ends_of_readNumber {cs : List Char} {kind : TokenKind} (hok : (readNumber cs).result = .ok kind) :
    Ends (readNumber cs).rest := by
  have hfollows {n : Numeral} {rest : List Char} (hdigit : ∀ c ∈ rest.head?, c.isDigit = false)
      (hok : (n.reading rest).result = .ok kind) : Ends rest := by
    rw [Numeral.reading] at hok
    dsimp only at hok
    split at hok
    · cases hok
    · next hnone => exact ends_of_followFault? hdigit hnone
  unfold readNumber at hok ⊢
  split at hok
  · exact hfollows (mantissa_rest cs).1 hok
  · next e rest he => exact hfollows (not_isDigit_of_exponentPart he) hok
  · cases hok

/-- No character that could go on with a name follows it. -/
theorem ends_of_readName (cs : List Char) : ∀ c ∈ (readName cs).rest.head?, isNamePart c = false := by
  intro c hc
  have hnot := List.head?_dropWhile_not isNamePart cs
  rw [show (cs.dropWhile isNamePart).head? = some c from hc] at hnot
  simpa using hnot

/-- A punctuator is no longer than two characters, and one of one character does not begin a longer one. -/
theorem readPunctuator_loosens {c : Char} {cs rest' : List Char} {kind : TokenKind}
    (hok : (readPunctuator c cs).result = .ok kind) (hrest : Loosens (readPunctuator c cs).rest rest') :
    ∃ p ds, kind = .punctuator p ∧ p.text = c :: ds ∧ (readPunctuator c cs).used = c :: ds ∧
      readPunctuator c (ds ++ rest') = ⟨c :: ds, rest', .ok kind⟩ := by
  unfold readPunctuator at hok hrest ⊢
  split at hok
  · next p rest hmatch =>
    cases hok
    rw [hmatch] at hrest
    obtain ⟨ds, hds⟩ : ∃ ds, p.text = c :: ds := by
      have happend := Text.append_of_firstMatch hmatch
      cases htext : p.text with
      | nil => cases p <;> cases htext
      | cons d ds =>
        rw [htext] at happend
        exact ⟨ds, by rw [(List.cons.inj happend).1]⟩
    refine ⟨p, ds, rfl, hds, hds, ?_⟩
    have hself : firstMatch Punctuator.text Punctuator.all (c :: ds) = some (p, []) := by
      rw [← hds]
      cases p <;> rfl
    have hmatch' : firstMatch Punctuator.text Punctuator.all (p.text ++ rest') = some (p, rest') := by
      rcases hrest with hsame | hsevers
      · cases rest' with
        | nil => rwa [List.append_nil, hds]
        | cons d rest' =>
          obtain ⟨after, rfl⟩ := List.head?_eq_some_iff.mp hsame.symm
          -- the match looks no further than the next character
          have hfront (after : List Char) : firstMatch Punctuator.text Punctuator.all (p.text ++ d :: after) =
              (firstMatch Punctuator.text Punctuator.all (p.text ++ [d])).map fun (a, r) => (a, r ++ after) := by
            rw [List.append_cons]
            refine firstMatch_append fun q _ => Text.isPrefixOf?_append_of_length_le ?_ after
            rw [List.length_append, hds]
            cases q <;> simp [Punctuator.text]
          rw [Text.append_of_firstMatch hmatch, hfront] at hmatch
          obtain ⟨⟨q, r⟩, hq, heq⟩ := Option.map_eq_some_iff.mp hmatch
          obtain ⟨rfl, hr⟩ := Prod.mk.inj heq
          have hr' : r = [d] := (List.append_left_inj after).mp hr
          rw [hfront, hq, hr']
          rfl
      · cases rest' with
        | nil => rwa [List.append_nil, hds]
        | cons d rest' =>
          rw [hds, firstMatch_append_cons fun q _ => (hsevers d rfl).getElem?_ne q ds.length, hself]
          rfl
    rw [hds] at hmatch'
    rw [← List.cons_append, hmatch']
    dsimp only
    rw [hds]
  · cases hok

/-! ### Tokens -/

variable {afterOperand afterOperand' : Bool} {c : Char} {cs rest' : List Char} {kind : TokenKind}

/-- A period stays a period in front of a loosened text. -/
theorem startsNumber_loosens (hrest : Loosens cs rest') (hs : startsNumber afterOperand c cs = false) :
    startsNumber afterOperand c rest' = false := by
  rcases hrest with hsame | hsevers
  · rw [startsNumber, hsame]
    exact hs
  · have hdigit : rest'.head?.any Char.isDigit = false := by
      cases rest' with
      | nil => rfl
      | cons d rest' =>
        have hpart := (hsevers d rfl).not_isNamePart
        rw [isNamePart, Bool.or_eq_false_iff] at hpart
        exact hpart.2
    rw [startsNumber, Bool.or_eq_false_iff] at hs
    rw [startsNumber, hdigit, hs.1, Bool.and_false, Bool.false_and]
    rfl

/-- A token is read in the same way if the text behind it is loosened and the text in front of it still lets a number
start there, or not. -/
theorem readToken_loosens (hok : (readToken afterOperand c cs).result = .ok kind)
    (hrest : Loosens (readToken afterOperand c cs).rest rest')
    (hstart : startsNumber afterOperand' c cs = startsNumber afterOperand c cs) :
    ∃ ds, (readToken afterOperand c cs).used = c :: ds ∧
      readToken afterOperand' c (ds ++ rest') = ⟨c :: ds, rest', .ok kind⟩ := by
  cases hs : startsNumber afterOperand c cs with
  | true =>
    have hread : readToken afterOperand c cs = readNumber (c :: cs) := by rw [readToken, if_pos hs]
    rw [hread] at hok hrest ⊢
    have hends : Ends rest' := hrest.forall_head? (ends_of_readNumber hok) fun _ hd => ⟨hd.not_isNamePart, hd.ne_period⟩
    exact readToken_number_append hs (hstart.trans hs) hok hends
  | false =>
    have hother (hperiod : c ≠ '.') (ds : List Char) : startsNumber afterOperand' c ds = false := by
      rw [startsNumber_of_ne_period hperiod, ← startsNumber_of_ne_period hperiod afterOperand cs, hs]
    by_cases hquote : c = '"' ∨ c = '\''
    · have hperiod : c ≠ '.' := by rcases hquote with rfl | rfl <;> decide
      have hread : readToken afterOperand c cs = readString c cs := by
        rw [readToken, hs, if_neg Bool.false_ne_true, if_pos hquote]
      rw [hread] at hok ⊢
      obtain ⟨ds, hused, hread'⟩ := readString_used_append hok rest'
      refine ⟨ds, hused, ?_⟩
      rw [readToken, hother hperiod, if_neg Bool.false_ne_true, if_pos hquote, hread']
    by_cases hname : isNameStart c = true
    · have hread : readToken afterOperand c cs = readName (c :: cs) := by
        rw [readToken, hs, if_neg Bool.false_ne_true, if_neg hquote, if_pos hname]
      rw [hread] at hok hrest ⊢
      have hends := hrest.forall_head? (ends_of_readName _) fun _ hd => hd.not_isNamePart
      obtain ⟨ds, hused, hread'⟩ := readName_used_append hname cs hends
      refine ⟨ds, hused, ?_⟩
      rw [readToken, hother (ne_period_of_isNameStart hname), if_neg Bool.false_ne_true, if_neg hquote, if_pos hname,
        hread', hok]
    · have hread : readToken afterOperand c cs = readPunctuator c cs := by
        rw [readToken, hs, if_neg Bool.false_ne_true, if_neg hquote, if_neg hname]
      have happend := append_readToken afterOperand c cs
      rw [hread] at hok hrest happend ⊢
      obtain ⟨p, ds, -, htext, hused, hread'⟩ := readPunctuator_loosens hok hrest
      have hstart' : startsNumber afterOperand' c (ds ++ rest') = false := by
        by_cases hperiod : c = '.'
        · subst hperiod
          obtain rfl : ds = [] := by cases p <;> cases htext; rfl
          rw [hused, List.singleton_append, List.cons.injEq] at happend
          rw [happend.2] at hrest
          exact startsNumber_loosens hrest (hstart.trans hs)
        · exact hother hperiod _
      refine ⟨ds, hused, ?_⟩
      rw [readToken, hstart', if_neg Bool.false_ne_true, if_neg hquote, if_neg hname, hread']

/-- Behind an operand a period is an access to a field, whatever follows it. -/
theorem readToken_period (cs : List Char) : readToken true '.' cs = ⟨['.'], cs, .ok (.punctuator .dot)⟩ := by
  have hstart : startsNumber true '.' cs = false := by
    rw [← Bool.not_eq_true, startsNumber_iff]
    simp
  rw [readToken, hstart, if_neg Bool.false_ne_true, if_neg (by decide), isNameStart_period, if_neg Bool.false_ne_true]
  rfl

/-- The characters of a token alone are the same token. -/
theorem readToken_alone {ds rest : List Char} (h : readToken afterOperand c (ds ++ rest) = ⟨c :: ds, rest, .ok kind⟩) :
    readToken false c ds = ⟨c :: ds, [], .ok kind⟩ := by
  by_cases hstart : startsNumber false c (ds ++ rest) = startsNumber afterOperand c (ds ++ rest)
  · obtain ⟨ds', hused, hread⟩ := readToken_loosens (by rw [h]) (loosens_nil _) hstart
    rw [h] at hused
    obtain rfl := (List.cons.inj hused).2
    rwa [List.append_nil] at hread
  · -- only a period that is an access to a field may start a number elsewhere
    have hperiod : c = '.' := by
      refine Decidable.byContradiction fun hne => hstart ?_
      rw [startsNumber_of_ne_period hne, startsNumber_of_ne_period hne]
    subst hperiod
    cases afterOperand with
    | false => exact absurd rfl hstart
    | true =>
      rw [readToken_period] at h
      cases h
      rfl

end TemplateSyntax.Expr
