import TemplateSyntax.Expr.Cursor

/-!
# How operands are spelled

A number, a string or a name is read in the same way from any text that begins with its characters, as long as what
follows them cannot continue a name or a number (`readToken_used_append`). So the characters alone are one token of the
same kind (`Lexes`), which is how an operand has to be spelled (`Token.Spelled`).
-/

namespace TemplateSyntax.Expr

open Text (isBlank byteLength byteLength_eq_zero takeWhile_append_of_head dropWhile_append_of_head)

/-! ### What may follow an operand -/

/-- The text does not continue a name or a number in front of it. -/
def Ends (rest : List Char) : Prop :=
  ∀ c ∈ rest.head?, isNamePart c = false ∧ c ≠ '.'

theorem ends_nil : Ends [] := by
  simp [Ends]

theorem Ends.not_isDigit {rest : List Char} (h : Ends rest) : ∀ c ∈ rest.head?, c.isDigit = false := by
  intro c hc
  have hpart := (h c hc).1
  rw [isNamePart, Bool.or_eq_false_iff] at hpart
  exact hpart.2

theorem Ends.followFault?_eq_none {rest : List Char} (h : Ends rest) : followFault? rest = none := by
  cases rest with
  | nil => rfl
  | cons c rest =>
    obtain ⟨hpart, hperiod⟩ := h c rfl
    rw [isNamePart, Bool.or_eq_false_iff] at hpart
    rw [followFault?, hpart.1, if_neg Bool.false_ne_true, if_neg hperiod]

/-- What may follow a number and is no digit does not continue it. -/
theorem ends_of_followFault? {rest : List Char} (hdigit : ∀ c ∈ rest.head?, c.isDigit = false)
    (h : followFault? rest = none) : Ends rest := by
  intro c hc
  obtain ⟨cs, rfl⟩ := List.head?_eq_some_iff.mp hc
  have hd := hdigit c rfl
  rw [followFault?] at h
  split at h
  · cases h
  · next hname =>
    split at h
    · cases h
    · next hperiod => exact ⟨by rw [isNamePart, hd, Bool.or_false, Bool.eq_false_iff.mpr hname], hperiod⟩

/-! ### Numbers -/

structure Exponent.Proper (e : Exponent) : Prop where
  mark : e.mark = 'e' ∨ e.mark = 'E'
  sign : ∀ c ∈ e.sign, c = '+' ∨ c = '-'
  digits : ∀ c ∈ e.digits, c.isDigit = true
  digits_ne_nil : e.digits ≠ []

/-- The numeral is made of digits, and has one before or behind the period. -/
structure Numeral.Proper (n : Numeral) : Prop where
  whole : ∀ c ∈ n.whole, c.isDigit = true
  fraction : ∀ ds ∈ n.fraction, ∀ c ∈ ds, c.isDigit = true
  exponent : ∀ e ∈ n.exponent, e.Proper
  start : n.whole ≠ [] ∨ ∃ d ds, n.fraction = some (d :: ds)

theorem Numeral.Proper.chars_ne_nil {n : Numeral} (h : n.Proper) : n.chars ≠ [] := by
  obtain ⟨whole, fraction, exponent⟩ := n
  rcases h.start with hne | ⟨d, ds, hfraction⟩
  · simp [chars, show whole ≠ [] from hne]
  · obtain rfl : fraction = some (d :: ds) := hfraction
    simp [chars, fractionChars]

/-- The text does not go on with the numeral in front of it. -/
structure Numeral.Stops (n : Numeral) (rest : List Char) : Prop where
  digit : ∀ c ∈ rest.head?, c.isDigit = false
  mark : n.exponent = none → ∀ c ∈ rest.head?, ¬(c = 'e' ∨ c = 'E')
  period : n.exponent = none → n.fraction = none → ∀ c ∈ rest.head?, c ≠ '.'

theorem Ends.stops {rest : List Char} (h : Ends rest) (n : Numeral) : n.Stops rest := by
  refine ⟨h.not_isDigit, fun _ c hc => ?_, fun _ _ c hc => (h c hc).2⟩
  have hpart := (h c hc).1
  rintro (rfl | rfl) <;> cases hpart

theorem mantissa_chars_append {n : Numeral} (h : n.Proper) (he : n.exponent = none) {rest : List Char}
    (hdigit : ∀ c ∈ rest.head?, c.isDigit = false) (hperiod : n.fraction = none → ∀ c ∈ rest.head?, c ≠ '.') :
    mantissa (n.chars ++ rest) = (n, rest) := by
  obtain ⟨whole, fraction, exponent⟩ := n
  obtain rfl : exponent = none := he
  rw [Numeral.chars_mk_none]
  cases fraction with
  | none =>
    rw [Numeral.fractionChars, List.append_nil, mantissa, takeWhile_append_of_head h.whole hdigit,
      dropWhile_append_of_head h.whole hdigit]
    split
    · next ds => exact absurd rfl (hperiod rfl '.' rfl)
    · rfl
  | some ds =>
    have hhead : ∀ c ∈ ('.' :: (ds ++ rest)).head?, c.isDigit = false := by
      intro c hc
      cases hc
      rfl
    rw [Numeral.fractionChars, List.append_assoc, List.cons_append, mantissa,
      takeWhile_append_of_head h.whole hhead, dropWhile_append_of_head h.whole hhead]
    simp only [takeWhile_append_of_head (h.fraction ds rfl) hdigit, dropWhile_append_of_head (h.fraction ds rfl) hdigit]

theorem signPart_append {sign : Option Char} (h : ∀ c ∈ sign, c = '+' ∨ c = '-') {rest : List Char}
    (hrest : sign = none → ∀ c ∈ rest.head?, ¬(c = '+' ∨ c = '-')) : signPart (sign.toList ++ rest) = (sign, rest) := by
  cases sign with
  | some c => exact if_pos (h c rfl)
  | none =>
    cases rest with
    | nil => rfl
    | cons d ds => exact if_neg (hrest rfl d rfl)

theorem exponentPart_chars_append {e : Exponent} (h : e.Proper) {rest : List Char}
    (hrest : ∀ c ∈ rest.head?, c.isDigit = false) : exponentPart (e.chars ++ rest) = .present e rest := by
  obtain ⟨mark, sign, digits⟩ := e
  obtain ⟨d, ds, rfl⟩ := List.exists_cons_of_ne_nil h.digits_ne_nil
  have hhead : sign = none → ∀ c ∈ (d :: ds ++ rest).head?, ¬(c = '+' ∨ c = '-') := by
    intro _ c hc
    cases hc
    have hd := h.digits d (List.mem_cons_self ..)
    rintro (rfl | rfl) <;> cases hd
  rw [Exponent.chars, List.cons_append, List.cons_append, exponentPart, if_pos h.mark, List.append_assoc,
    signPart_append h.sign hhead]
  dsimp only
  rw [takeWhile_append_of_head h.digits hrest, dropWhile_append_of_head h.digits hrest]

theorem exponentPart_eq_absent {rest : List Char} (h : ∀ c ∈ rest.head?, ¬(c = 'e' ∨ c = 'E')) :
    exponentPart rest = .absent := by
  cases rest with
  | nil => rfl
  | cons c rest => exact if_neg (h c rfl)

/-- A numeral is read up to where the text does not go on with it. -/
theorem readNumber_append {n : Numeral} (h : n.Proper) {rest : List Char} (hrest : n.Stops rest) :
    readNumber (n.chars ++ rest) = n.reading rest := by
  obtain ⟨whole, fraction, exponent⟩ := n
  have hmantissa : Numeral.Proper ⟨whole, fraction, none⟩ := ⟨h.whole, h.fraction, (fun e he => by cases he), h.start⟩
  cases exponent with
  | none =>
    rw [readNumber, mantissa_chars_append hmantissa rfl hrest.digit (hrest.period rfl),
      exponentPart_eq_absent (hrest.mark rfl)]
  | some e =>
    have hproper := h.exponent e rfl
    -- the mantissa ends at the mark of the exponent
    have hhead : ∀ c ∈ (e.chars ++ rest).head?, c.isDigit = false ∧ c ≠ '.' := by
      intro c hc
      cases hc
      rcases hproper.mark with hm | hm <;> rw [hm] <;> decide
    have hchars := Numeral.chars_of_exponent (n := ⟨whole, fraction, none⟩) rfl e
    rw [hchars, List.append_assoc, readNumber,
      mantissa_chars_append hmantissa rfl (fun c hc => (hhead c hc).1) (fun _ c hc => (hhead c hc).2),
      exponentPart_chars_append hproper hrest.digit]

theorem readNumber_chars_append {n : Numeral} (h : n.Proper) {rest : List Char} (hrest : Ends rest) :
    readNumber (n.chars ++ rest) = ⟨n.chars, rest, .ok (.number n.value)⟩ := by
  rw [readNumber_append h (hrest.stops n), Numeral.reading, hrest.followFault?_eq_none]

theorem proper_mantissa {c : Char} {cs : List Char}
    (h : c.isDigit = true ∨ c = '.' ∧ cs.head?.any Char.isDigit = true) :
    (mantissa (c :: cs)).1.Proper := by
  have hdigit (l : List Char) : ∀ d ∈ l.takeWhile Char.isDigit, d.isDigit = true := fun d hd =>
    List.all_eq_true.mp List.all_takeWhile d hd
  unfold mantissa
  split
  · next rest hdrop =>
    refine ⟨hdigit _, ?_, by simp, ?_⟩
    · rintro ds ⟨⟩
      exact hdigit rest
    · rcases h with hc | ⟨rfl, hcs⟩
      · exact .inl (by simp [hc])
      · obtain rfl : cs = rest := by simpa using hdrop
        obtain ⟨d, hd, hdig⟩ := (Option.any_eq_true _ _).mp hcs
        obtain ⟨ds, rfl⟩ := List.head?_eq_some_iff.mp hd
        exact .inr ⟨d, _, by rw [List.takeWhile_cons_of_pos hdig]⟩
  · next hdrop =>
    refine ⟨hdigit _, by simp, by simp, ?_⟩
    rcases h with hc | ⟨rfl, -⟩
    · exact .inl (by simp [hc])
    · exact absurd rfl (hdrop cs)

theorem signPart_cases (cs : List Char) :
    (∀ c ∈ (signPart cs).1, c = '+' ∨ c = '-') ∧
      ((signPart cs).1 = none → ∀ c ∈ (signPart cs).2.head?, ¬(c = '+' ∨ c = '-')) := by
  cases cs with
  | nil => simp [signPart]
  | cons c cs =>
    rw [signPart]
    split
    · next hc => simp [hc]
    · next hc => simpa using hc

theorem proper_of_exponentPart {cs rest : List Char} {e : Exponent} (h : exponentPart cs = .present e rest) :
    e.Proper := by
  cases cs with
  | nil => cases h
  | cons c cs =>
    rw [exponentPart] at h
    split at h
    · next hmark =>
      simp only at h
      split at h
      · cases h
      · next d ds hdigits =>
        cases h
        refine ⟨hmark, (signPart_cases cs).1, fun x hx => ?_, List.cons_ne_nil _ _⟩
        dsimp only at hx
        rw [← hdigits] at hx
        exact List.all_eq_true.mp List.all_takeWhile x hx
    · cases h

theorem not_isDigit_of_dropWhile (cs : List Char) : ∀ c ∈ (cs.dropWhile Char.isDigit).head?, c.isDigit = false := by
  intro c hc
  have hnot := List.head?_dropWhile_not Char.isDigit cs
  rw [Option.mem_def.mp hc] at hnot
  simpa using hnot

/-- All digits are taken, and the first period too. -/
theorem mantissa_rest (cs : List Char) :
    (∀ c ∈ (mantissa cs).2.head?, c.isDigit = false) ∧
      ((mantissa cs).1.fraction = none → ∀ c ∈ (mantissa cs).2.head?, c ≠ '.') := by
  unfold mantissa
  split
  · next rest _ => exact ⟨not_isDigit_of_dropWhile rest, fun hnone => by cases hnone⟩
  · next hperiod =>
    refine ⟨not_isDigit_of_dropWhile cs, fun _ c hc => ?_⟩
    rintro rfl
    obtain ⟨more, hmore⟩ := List.head?_eq_some_iff.mp hc
    exact hperiod more hmore

theorem not_mark_of_exponentPart {cs : List Char} (h : exponentPart cs = .absent) :
    ∀ c ∈ cs.head?, ¬(c = 'e' ∨ c = 'E') := by
  intro c hc hmark
  obtain ⟨ds, rfl⟩ := List.head?_eq_some_iff.mp hc
  rw [exponentPart, if_pos hmark] at h
  dsimp only at h
  split at h <;> cases h

theorem not_isDigit_of_exponentPart {cs rest : List Char} {e : Exponent} (h : exponentPart cs = .present e rest) :
    ∀ c ∈ rest.head?, c.isDigit = false := by
  unfold exponentPart at h
  split at h
  · cases h
  · split at h
    · dsimp only at h
      split at h
      · cases h
      · cases h
        exact not_isDigit_of_dropWhile _
    · cases h

/-- An exponent is broken if no digit stands behind its mark and the sign that may follow. -/
theorem exists_of_exponentPart_broken {cs used rest : List Char} (h : exponentPart cs = .broken used rest) :
    ∃ (mark : Char) (sign : Option Char), (mark = 'e' ∨ mark = 'E') ∧ (∀ c ∈ sign, c = '+' ∨ c = '-') ∧
      used = mark :: sign.toList ∧ (∀ c ∈ rest.head?, c.isDigit = false) ∧
      (sign = none → ∀ c ∈ rest.head?, ¬(c = '+' ∨ c = '-')) := by
  unfold exponentPart at h
  split at h
  · cases h
  · next mark cs =>
    split at h
    · next hmark =>
      dsimp only at h
      split at h
      · next hnone =>
        cases h
        obtain ⟨hsign, hnosign⟩ := signPart_cases cs
        refine ⟨mark, _, hmark, hsign, rfl, fun c hc => ?_, hnosign⟩
        obtain ⟨more, hmore⟩ := List.head?_eq_some_iff.mp hc
        rw [hmore] at hnone
        cases hdigit : c.isDigit with
        | false => rfl
        | true =>
          rw [List.takeWhile_cons_of_pos hdigit] at hnone
          cases hnone
      · cases h
    · cases h

/-- What is read as a number is a proper numeral. -/
theorem exists_proper_of_readNumber {c : Char} {cs : List Char}
    (h : c.isDigit = true ∨ c = '.' ∧ cs.head?.any Char.isDigit = true) {kind : TokenKind}
    (hok : (readNumber (c :: cs)).result = .ok kind) :
    ∃ n : Numeral, n.Proper ∧ (readNumber (c :: cs)).used = n.chars ∧ kind = .number n.value := by
  have hmantissa := proper_mantissa h
  have hresult {n : Numeral} {rest : List Char} (hok : (n.reading rest).result = .ok kind) :
      kind = .number n.value := by
    rw [Numeral.reading] at hok
    dsimp only at hok
    split at hok
    · cases hok
    · exact (Except.ok.inj hok).symm
  unfold readNumber at hok ⊢
  split at hok
  · exact ⟨_, hmantissa, rfl, hresult hok⟩
  · next e rest he =>
    refine ⟨{ (mantissa (c :: cs)).1 with exponent := some e },
      ⟨hmantissa.whole, hmantissa.fraction, ?_, hmantissa.start⟩, rfl, hresult hok⟩
    rintro e' ⟨⟩
    exact proper_of_exponentPart he
  · cases hok

/-! ### Names and strings -/

theorem readName_append {cs rest : List Char} (h : ∀ c ∈ cs, isNamePart c = true)
    (hrest : ∀ c ∈ rest.head?, isNamePart c = false) :
    readName (cs ++ rest) = ⟨cs, rest, .ok (.identifier (String.ofList cs))⟩ := by
  rw [readName, takeWhile_append_of_head h hrest, dropWhile_append_of_head h hrest]

theorem stringBody_escape {quote : Char} (hq : '\\' ≠ quote) (d : Char) (cs : List Char) :
    stringBody quote ('\\' :: d :: cs) = (stringBody quote cs).cons ['\\', d] (unescape d) := by
  rw [stringBody.eq_def]
  simp [hq]

theorem stringBody_plain {quote c : Char} (hq : ¬c = quote) (hb : ¬c = '\\') (cs : List Char) :
    stringBody quote (c :: cs) = (stringBody quote cs).cons [c] [c] := by
  rw [stringBody.eq_def]
  simp [hq, hb]

/-- A string ends at its closing quote, whatever follows. -/
theorem stringBody_used_append {quote : Char} {cs r : List Char} (h : (stringBody quote cs).rest = some r)
    (rest : List Char) :
    stringBody quote ((stringBody quote cs).used ++ rest) =
      ⟨(stringBody quote cs).used, (stringBody quote cs).value, some rest⟩ := by
  induction cs using stringBody.induct quote with
  | case1 => cases h
  | case2 cs =>
    have hclose (ds : List Char) : stringBody quote (quote :: ds) = ⟨[quote], [], some ds⟩ := by
      rw [stringBody.eq_def]
      simp
    rw [hclose]
    exact hclose rest
  | case3 hq => simp [stringBody, hq] at h
  | case4 d cs hq ih =>
    rw [stringBody_escape hq] at h ⊢
    change stringBody quote ('\\' :: d :: ((stringBody quote cs).used ++ rest)) = _
    rw [stringBody_escape hq, ih h]
    rfl
  | case5 c cs hq hb ih =>
    rw [stringBody_plain hq hb] at h ⊢
    change stringBody quote (c :: ((stringBody quote cs).used ++ rest)) = _
    rw [stringBody_plain hq hb, ih h]
    rfl

/-! ### Operands -/

/-- A number, a string or a name. -/
def TokenKind.isOperand : TokenKind → Bool
  | .number _ | .string _ | .identifier _ => true
  | .punctuator _ | .eof => false

theorem startsNumber_iff {afterOperand : Bool} {c : Char} {cs : List Char} :
    startsNumber afterOperand c cs = true ↔
      c.isDigit = true ∨ c = '.' ∧ cs.head?.any Char.isDigit = true ∧ afterOperand = false := by
  simp [startsNumber, and_assoc]

theorem isDigit_or_of_startsNumber {afterOperand : Bool} {c : Char} {cs : List Char}
    (h : startsNumber afterOperand c cs = true) : c.isDigit = true ∨ c = '.' ∧ cs.head?.any Char.isDigit = true :=
  (startsNumber_iff.mp h).imp_right fun hperiod => ⟨hperiod.1, hperiod.2.1⟩

theorem startsNumber_of_ne_period {c : Char} (h : c ≠ '.') (afterOperand : Bool) (cs : List Char) :
    startsNumber afterOperand c cs = c.isDigit := by
  rw [startsNumber, beq_eq_false_iff_ne.mpr h, Bool.false_and, Bool.false_and, Bool.or_false]

/-- A number starts in the same way when no operand ended before it, whatever follows its characters. -/
theorem startsNumber_of_proper {n : Numeral} (h : n.Proper) {c : Char} {ds : List Char} (hchars : n.chars = c :: ds)
    (rest : List Char) : startsNumber false c (ds ++ rest) = true := by
  obtain ⟨whole, fraction, exponent⟩ := n
  cases whole with
  | cons d whole =>
    obtain ⟨rfl, -⟩ := List.cons.inj hchars
    have hd := h.whole d (List.mem_cons_self ..)
    simp [startsNumber, hd]
  | nil =>
    obtain ⟨d, digits, hfraction⟩ := h.start.resolve_left (fun hne => hne rfl)
    obtain rfl : fraction = some (d :: digits) := hfraction
    have hd := h.fraction _ rfl d (List.mem_cons_self ..)
    simp only [Numeral.chars, Numeral.fractionChars, List.nil_append, List.cons_append, List.cons.injEq] at hchars
    obtain ⟨rfl, rfl⟩ := hchars
    simp [startsNumber, hd]

theorem isNameStart_period : isNameStart '.' = false := by
  decide

/-- A number is read in the same way behind another token, if it starts there too. -/
theorem readToken_number_append {afterOperand afterOperand' : Bool} {c : Char} {cs : List Char} {kind : TokenKind}
    (hs : startsNumber afterOperand c cs = true) (hs' : startsNumber afterOperand' c cs = true)
    (hok : (readNumber (c :: cs)).result = .ok kind) {rest : List Char} (hrest : Ends rest) :
    ∃ ds, (readNumber (c :: cs)).used = c :: ds ∧
      readToken afterOperand' c (ds ++ rest) = ⟨c :: ds, rest, .ok kind⟩ := by
  obtain ⟨n, hn, hused, rfl⟩ := exists_proper_of_readNumber (isDigit_or_of_startsNumber hs) hok
  -- the first character is used
  obtain ⟨d, ds, hds⟩ := List.exists_cons_of_ne_nil hn.chars_ne_nil
  have happend := append_readNumber (c :: cs)
  rw [hused, hds] at happend
  obtain rfl : d = c := (List.cons.inj happend).1
  have hstarts : startsNumber afterOperand' d (ds ++ rest) = true := by
    by_cases hd : d.isDigit = true
    · exact startsNumber_iff.mpr (.inl hd)
    · obtain ⟨-, -, rfl⟩ := (startsNumber_iff.mp hs').resolve_left hd
      exact startsNumber_of_proper hn hds rest
  refine ⟨ds, hused.trans hds, ?_⟩
  rw [readToken, if_pos hstarts, ← List.cons_append, ← hds]
  exact readNumber_chars_append hn hrest

theorem readString_used_append {quote : Char} {cs : List Char} {kind : TokenKind}
    (hok : (readString quote cs).result = .ok kind) (rest : List Char) :
    ∃ ds, (readString quote cs).used = quote :: ds ∧
      readString quote (ds ++ rest) = ⟨quote :: ds, rest, .ok kind⟩ := by
  unfold readString at hok ⊢
  dsimp only at hok ⊢
  split at hok
  · next r hr =>
    cases hok
    refine ⟨(stringBody quote cs).used, rfl, ?_⟩
    rw [stringBody_used_append hr]
  · cases hok

theorem readName_used_append {c : Char} (hname : isNameStart c = true) (cs : List Char) {rest : List Char}
    (hrest : ∀ d ∈ rest.head?, isNamePart d = false) :
    ∃ ds, (readName (c :: cs)).used = c :: ds ∧
      readName (c :: (ds ++ rest)) = ⟨c :: ds, rest, (readName (c :: cs)).result⟩ := by
  have hpart : isNamePart c = true := by rw [isNamePart, hname, Bool.true_or]
  have hused : (readName (c :: cs)).used = c :: cs.takeWhile isNamePart := List.takeWhile_cons_of_pos hpart
  have hparts : ∀ d ∈ c :: cs.takeWhile isNamePart, isNamePart d = true := by
    rw [← hused]
    exact fun d hd => List.all_eq_true.mp List.all_takeWhile d hd
  refine ⟨_, hused, ?_⟩
  rw [← List.cons_append, readName_append hparts hrest, ← hused]
  rfl

theorem ne_period_of_isNameStart {c : Char} (h : isNameStart c = true) : c ≠ '.' := by
  rintro rfl
  rw [isNameStart_period] at h
  cases h

/-- The characters of an operand are read as the same operand in front of anything that does not continue it. -/
theorem readToken_used_append {afterOperand : Bool} {c : Char} {cs : List Char} {kind : TokenKind}
    (hok : (readToken afterOperand c cs).result = .ok kind) (hkind : kind.isOperand = true) {rest : List Char}
    (hrest : Ends rest) :
    ∃ ds, (readToken afterOperand c cs).used = c :: ds ∧
      readToken false c (ds ++ rest) = ⟨c :: ds, rest, .ok kind⟩ := by
  cases hs : startsNumber afterOperand c cs with
  | true =>
    have hread : readToken afterOperand c cs = readNumber (c :: cs) := by rw [readToken, if_pos hs]
    have hs' : startsNumber false c cs = true :=
      startsNumber_iff.mpr ((isDigit_or_of_startsNumber hs).imp_right fun hperiod => ⟨hperiod.1, hperiod.2, rfl⟩)
    rw [hread] at hok ⊢
    exact readToken_number_append hs hs' hok hrest
  | false =>
    have hother (hperiod : c ≠ '.') (ds : List Char) : startsNumber false c ds = false := by
      rw [startsNumber_of_ne_period hperiod, ← startsNumber_of_ne_period hperiod afterOperand cs, hs]
    rw [readToken, hs, if_neg Bool.false_ne_true] at hok ⊢
    split at hok
    · next hquote =>
      have hperiod : c ≠ '.' := by rcases hquote with rfl | rfl <;> decide
      obtain ⟨ds, hused, hread⟩ := readString_used_append hok rest
      rw [if_pos hquote]
      refine ⟨ds, hused, ?_⟩
      rw [readToken, hother hperiod, if_neg Bool.false_ne_true, if_pos hquote, hread]
    · next hquote =>
      rw [if_neg hquote]
      split at hok
      · next hname =>
        obtain ⟨ds, hused, hread⟩ := readName_used_append hname cs fun d hd => (hrest d hd).1
        rw [if_pos hname]
        refine ⟨ds, hused, ?_⟩
        rw [readToken, hother (ne_period_of_isNameStart hname), if_neg Bool.false_ne_true, if_neg hquote, if_pos hname,
          hread, hok]
      · -- no punctuator is an operand
        unfold readPunctuator at hok
        split at hok
        · cases hok
          cases hkind
        · cases hok

theorem kind_ne_eof_of_readToken {afterOperand : Bool} {c : Char} {cs : List Char} {kind : TokenKind}
    (hok : (readToken afterOperand c cs).result = .ok kind) : kind ≠ .eof := by
  rintro rfl
  unfold readToken at hok
  split at hok
  · unfold readNumber Numeral.reading at hok
    split at hok <;> dsimp only at hok <;> (try split at hok) <;> cases hok
  split at hok
  · unfold readString at hok
    dsimp only at hok
    split at hok <;> cases hok
  split at hok
  · cases hok
  · unfold readPunctuator at hok
    split at hok <;> cases hok

/-! ### Tokens one by one -/

namespace Cursor

theorem tokens_nil (offset : Nat) (afterOperand : Bool) :
    (⟨[], offset, afterOperand⟩ : Cursor).tokens = .ok ([], offset) := by
  rw [tokens_eq]
  rfl

/-- Blanks in front of a token move it only. -/
theorem next_blanks {blanks : List Char} (h : ∀ b ∈ blanks, isBlank b = true) (cs : List Char) (offset : Nat)
    (afterOperand : Bool) :
    (⟨blanks ++ cs, offset, afterOperand⟩ : Cursor).next =
      (⟨cs, offset + byteLength blanks, afterOperand⟩ : Cursor).next := by
  simp only [next, List.takeWhile_append_of_pos h, List.dropWhile_append_of_pos h, Text.byteLength_append, Nat.add_assoc]

theorem tokens_blanks {blanks : List Char} (h : ∀ b ∈ blanks, isBlank b = true) (cs : List Char) (offset : Nat)
    (afterOperand : Bool) :
    (⟨blanks ++ cs, offset, afterOperand⟩ : Cursor).tokens =
      (⟨cs, offset + byteLength blanks, afterOperand⟩ : Cursor).tokens := by
  rw [tokens_eq, tokens_eq, next_blanks h]

theorem tokens_blank {c : Char} (hc : isBlank c = true) (cs : List Char) (offset : Nat) (afterOperand : Bool) :
    (⟨c :: cs, offset, afterOperand⟩ : Cursor).tokens = (⟨cs, offset + c.utf8Size, afterOperand⟩ : Cursor).tokens :=
  tokens_blanks (List.forall_mem_singleton.mpr hc) cs offset afterOperand

theorem next_of_readToken {afterOperand : Bool} {c : Char} {cs used rest : List Char} {kind : TokenKind}
    (hc : isBlank c = false) (h : readToken afterOperand c cs = ⟨used, rest, .ok kind⟩) (offset : Nat) :
    (⟨c :: cs, offset, afterOperand⟩ : Cursor).next =
      (.ok ⟨kind, String.ofList used, ⟨offset, offset + byteLength used⟩⟩,
        ⟨rest, offset + byteLength used, kind.endsOperand⟩) := by
  simp [next, hc, h, Reading.answer]

theorem tokens_of_readToken {afterOperand : Bool} {c : Char} {cs used rest : List Char} {kind : TokenKind}
    (hc : isBlank c = false) (h : readToken afterOperand c cs = ⟨used, rest, .ok kind⟩) (offset : Nat) :
    (⟨c :: cs, offset, afterOperand⟩ : Cursor).tokens =
      ((⟨rest, offset + byteLength used, kind.endsOperand⟩ : Cursor).tokens).map fun (ts, stop) =>
        (⟨kind, String.ofList used, ⟨offset, offset + byteLength used⟩⟩ :: ts, stop) := by
  have hkind : kind ≠ .eof := kind_ne_eof_of_readToken (by rw [h])
  rw [tokens_eq, next_of_readToken hc h]
  dsimp only
  rw [if_neg hkind]
  cases (⟨rest, offset + byteLength used, kind.endsOperand⟩ : Cursor).tokens <;> rfl

/-- A step that succeeds is at the end behind the blanks, or reads a token there. -/
theorem next_eq_ok {cur cur' : Cursor} {t : Token} (h : cur.next = (.ok t, cur')) :
    let start := cur.offset + byteLength (cur.rest.takeWhile isBlank)
    (cur.rest.dropWhile isBlank = [] ∧ t = endToken start ∧ cur' = ⟨[], start, cur.afterOperand⟩) ∨
      ∃ c cs rest kind, cur.rest.dropWhile isBlank = c :: (cs ++ rest) ∧ isBlank c = false ∧ kind ≠ .eof ∧
        readToken cur.afterOperand c (cs ++ rest) = ⟨c :: cs, rest, .ok kind⟩ ∧
        t = ⟨kind, String.ofList (c :: cs), ⟨start, start + byteLength (c :: cs)⟩⟩ ∧
        cur' = ⟨rest, start + byteLength (c :: cs), kind.endsOperand⟩ := by
  have hhead := List.head?_dropWhile_not isBlank cur.rest
  unfold next at h
  dsimp only at h
  split at h
  · next hnil =>
    cases h
    exact .inl ⟨hnil, rfl, rfl⟩
  · next c cs hrest =>
    refine .inr ?_
    rw [hrest] at hhead ⊢
    obtain ⟨hanswer, rfl⟩ := Prod.mk.inj h
    have happend := append_readToken cur.afterOperand c cs
    have hused := used_ne_nil_or cur.afterOperand c cs
    cases hread : readToken cur.afterOperand c cs with
    | mk used rest result =>
      rw [hread] at hanswer happend hused
      cases result with
      | error fault => cases hanswer
      | ok kind =>
        cases hanswer
        obtain ⟨d, ds, rfl⟩ := List.exists_cons_of_ne_nil (hused.resolve_right fun herror => by cases herror)
        obtain ⟨rfl, rfl⟩ := List.cons.inj happend
        exact ⟨d, ds, rest, kind, rfl, hhead, kind_ne_eof_of_readToken (by rw [hread]), hread, rfl, rfl⟩

/-- Either only blanks are left, or a token is read behind them. -/
theorem tokens_eq_ok {cur : Cursor} {ts : List Token} {stop : Nat} (h : cur.tokens = .ok (ts, stop)) :
    (cur.rest.dropWhile isBlank = [] ∧ ts = []) ∨
      ∃ c cs kind us, cur.rest.dropWhile isBlank = c :: cs ∧ (readToken cur.afterOperand c cs).result = .ok kind ∧
        (∃ cur' : Cursor, cur'.rest.length < cur.rest.length ∧ cur'.tokens = .ok (us, stop)) ∧
        let used := (readToken cur.afterOperand c cs).used
        let start := cur.offset + byteLength (cur.rest.takeWhile isBlank)
        ts = ⟨kind, String.ofList used, ⟨start, start + byteLength used⟩⟩ :: us := by
  rw [tokens_eq] at h
  split at h
  · cases h
  next t cur' hnext =>
  rcases next_eq_ok hnext with ⟨hblank, rfl, rfl⟩ | ⟨c, cs, rest, kind, hrest, -, hkind, hread, rfl, rfl⟩
  · cases h
    exact .inl ⟨hblank, rfl⟩
  · rw [if_neg hkind] at h
    split at h
    · cases h
    next us stop' hus =>
    cases h
    exact .inr ⟨c, cs ++ rest, kind, us, hrest, by rw [hread], ⟨_, length_lt_of_next hnext hkind, hus⟩, by rw [hread]⟩

end Cursor

/-! ### Texts of one token -/

/-- The text is one token of the kind, from its first character to its last. -/
def Lexes (text : String) (kind : TokenKind) : Prop :=
  tokenizeAt text 0 =
    .ok [⟨kind, text, ⟨0, byteLength text.toList⟩⟩, endToken (byteLength text.toList)]

theorem lexes_of_readToken {text : String} {kind : TokenKind} {c : Char} {cs : List Char}
    (htext : text.toList = c :: cs) (hc : isBlank c = false) (h : readToken false c cs = ⟨c :: cs, [], .ok kind⟩) :
    Lexes text kind := by
  rw [Lexes, tokenizeAt, Cursor.ofSource, htext, Cursor.tokens_of_readToken hc h, Cursor.tokens_nil, ← htext,
    String.ofList_toList]
  simp [Except.map]

theorem readToken_of_lexes {text : String} {kind : TokenKind} (h : Lexes text kind) :
    ∃ c cs, text.toList = c :: cs ∧ isBlank c = false ∧ readToken false c cs = ⟨c :: cs, [], .ok kind⟩ := by
  unfold Lexes tokenizeAt at h
  split at h
  · cases h
  · next ts stop hts =>
    have happend : ts ++ [_] = [_] ++ [_] := Except.ok.inj h
    obtain ⟨rfl, -⟩ := List.append_inj' happend rfl
    rcases Cursor.tokens_eq_ok hts with ⟨-, hnil⟩ | ⟨c, cs, kind', us, hrest, hkind, -, heq⟩
    · cases hnil
    · simp only [Cursor.ofSource, List.cons.injEq, Token.mk.injEq, Span.mk.injEq, Nat.zero_add] at heq hrest hkind
      obtain ⟨⟨rfl, htext, hstart, -⟩, -⟩ := heq
      -- the token starts at the start of the text, so no blank stands in front of it
      have hblank : text.toList.takeWhile isBlank = [] := byteLength_eq_zero.mp hstart.symm
      have hsplit := List.takeWhile_append_dropWhile (p := isBlank) (l := text.toList)
      rw [hblank, hrest, List.nil_append] at hsplit
      have hused : (readToken false c cs).used = c :: cs := by
        rw [hsplit, htext, String.toList_ofList]
      have happend := append_readToken false c cs
      rw [hused] at happend
      have hrest' : (readToken false c cs).rest = [] := List.append_right_eq_self.mp happend
      refine ⟨c, cs, hsplit.symm, ?_, ?_⟩
      · cases hc : isBlank c with
        | false => rfl
        | true => rw [← hsplit, List.takeWhile_cons_of_pos hc] at hblank; cases hblank
      · generalize readToken false c cs = r at *
        cases r
        simp_all

/-- A name is its own text. -/
theorem eq_of_lexes_identifier {text name : String} (h : Lexes text (.identifier name)) : text = name := by
  obtain ⟨c, cs, htext, -, hread⟩ := readToken_of_lexes h
  unfold readToken at hread
  split at hread
  · unfold readNumber Numeral.reading at hread
    split at hread <;> injection hread with _ _ hresult <;> (try split at hresult) <;> cases hresult
  split at hread
  · unfold readString at hread
    dsimp only at hread
    split at hread <;> injection hread with _ _ hresult <;> cases hresult
  split at hread
  · injection hread with hused _ hresult
    injection hresult with hkind
    injection hkind with hname
    rw [← hname, hused, ← htext, String.ofList_toList]
  · unfold readPunctuator at hread
    split at hread <;> injection hread with _ _ hresult <;> cases hresult

/-- The text of a token, if it is an operand, is read as just that token. -/
def Token.Spelled (t : Token) : Prop :=
  t.kind.isOperand = true → Lexes t.text t.kind

end TemplateSyntax.Expr
