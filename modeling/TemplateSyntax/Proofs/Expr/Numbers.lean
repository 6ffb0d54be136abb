import TemplateSyntax.Proofs.Expr.Spelling

/-!
# The language of numbers

A text starts with a number if its longest numeral has an exponent where there is a mark of one, and neither a name nor
a period follows. Where a number may stand, one is read just if the text starts with one, and it is all of that. If not,
the error is told at the first character that no number could have there, or at the end (`Cursor.next_number`).
-/

namespace TemplateSyntax.Expr

open Text (isBlank byteLength)

/-! ### Texts that start with a number -/

/-- The number `n` stands at the start of the text, in front of `rest`. -/
structure StartsWith (text : List Char) (n : Numeral) (rest : List Char) : Prop where
  proper : n.Proper
  split : text = n.chars ++ rest
  longest : ∀ m : Numeral, m.Proper → m.chars <+: text → m.chars.length ≤ n.chars.length
  exponent : n.exponent = none → ∀ c ∈ rest.head?, ¬(c = 'e' ∨ c = 'E')
  follow : ∀ c ∈ rest.head?, isNameStart c = false ∧ c ≠ '.'

variable {n : Numeral} {text front rest rest' : List Char} {fault : Fault}

theorem Numeral.Proper.exists_push (h : n.Proper) {d : Char} (hd : d.isDigit = true) :
    ∃ m : Numeral, m.Proper ∧ m.chars = n.chars ++ [d] := by
  have hpush {ds : List Char} (hds : ∀ c ∈ ds, c.isDigit = true) : ∀ c ∈ ds ++ [d], c.isDigit = true := by
    intro c hc
    rcases List.mem_append.mp hc with hc | hc
    · exact hds c hc
    · rwa [List.mem_singleton.mp hc]
  obtain ⟨whole, fraction, exponent⟩ := n
  cases exponent with
  | some e =>
    obtain ⟨mark, sign, digits⟩ := e
    have he := h.exponent _ rfl
    refine ⟨⟨whole, fraction, some ⟨mark, sign, digits ++ [d]⟩⟩, ⟨h.whole, h.fraction, ?_, h.start⟩, ?_⟩
    · rintro e' ⟨⟩
      exact ⟨he.mark, he.sign, hpush he.digits, by simp⟩
    · simp [Numeral.chars, Exponent.chars]
  | none =>
    cases fraction with
    | some ds =>
      refine ⟨⟨whole, some (ds ++ [d]), none⟩, ⟨h.whole, ?_, h.exponent, ?_⟩, ?_⟩
      · rintro ds' ⟨⟩
        exact hpush (h.fraction ds rfl)
      · rcases h.start with hwhole | ⟨c, cs, hcs⟩
        · exact .inl hwhole
        · obtain rfl := Option.some.inj hcs
          exact .inr ⟨c, cs ++ [d], rfl⟩
      · simp [Numeral.fractionChars]
    | none =>
      refine ⟨⟨whole ++ [d], none, none⟩, ⟨hpush h.whole, h.fraction, h.exponent, .inl (by simp)⟩, ?_⟩
      simp [Numeral.fractionChars]

/-- No proper numeral goes on with another one that nothing goes on with. -/
theorem length_chars_le (h : n.Proper) (hrest : Ends rest) {m : Numeral} (hm : m.Proper)
    (hbegins : m.chars <+: n.chars ++ rest) : m.chars.length ≤ n.chars.length := by
  rcases List.prefix_or_prefix_of_prefix hbegins (List.prefix_append n.chars rest) with hle | ⟨mid, hmid⟩
  · exact hle.length_le
  · rw [← hmid, List.prefix_append_right_inj] at hbegins
    have hends : Ends mid := by
      intro c hc
      obtain ⟨more, hmore⟩ := hbegins
      refine hrest c ?_
      rw [← hmore, List.head?_append, Option.mem_def.mp hc]
      rfl
    -- the longer numeral is read as a whole, and as the shorter one
    have hwhole := readNumber_chars_append hm ends_nil
    rw [List.append_nil, ← hmid, readNumber_chars_append h hends] at hwhole
    have hused : n.chars = n.chars ++ mid := congrArg Reading.used hwhole
    exact Nat.le_of_eq (by rw [← hmid, ← hused])

/-- The number at the start of a text is a proper numeral with which the text does not go on. -/
theorem startsWith_iff : StartsWith text n rest ↔ n.Proper ∧ text = n.chars ++ rest ∧ Ends rest := by
  constructor
  · intro h
    refine ⟨h.proper, h.split, fun c hc => ?_⟩
    obtain ⟨hname, hperiod⟩ := h.follow c hc
    refine ⟨?_, hperiod⟩
    rw [isNamePart, hname, Bool.false_or]
    cases hdigit : c.isDigit with
    | false => rfl
    | true =>
      -- a digit would make the numeral longer
      obtain ⟨m, hm, hchars⟩ := h.proper.exists_push hdigit
      obtain ⟨cs, rfl⟩ := List.head?_eq_some_iff.mp hc
      have hbegins : m.chars <+: text := ⟨cs, by rw [hchars, h.split, List.append_assoc]; rfl⟩
      have hle := h.longest m hm hbegins
      rw [hchars, List.length_append, List.length_singleton] at hle
      omega
  · rintro ⟨hproper, rfl, hends⟩
    refine ⟨hproper, rfl, fun m hm hbegins => length_chars_le hproper hends hm hbegins, ?_, fun c hc => ?_⟩
    · exact fun hnone => (hends.stops n).mark hnone
    · obtain ⟨hpart, hperiod⟩ := hends c hc
      rw [isNamePart, Bool.or_eq_false_iff] at hpart
      exact ⟨hpart.1, hperiod⟩

theorem StartsWith.readNumber_eq (h : StartsWith text n rest) :
    readNumber text = ⟨n.chars, rest, .ok (.number n.value)⟩ := by
  obtain ⟨hproper, rfl, hends⟩ := startsWith_iff.mp h
  exact readNumber_chars_append hproper hends

/-! ### Texts that do not -/

/-- Some text with this start starts with a number. -/
def Viable (front : List Char) : Prop :=
  ∃ more n rest, StartsWith (front ++ more) n rest

/-- The text is at fault behind `front`: a number could go on there, but not with the next character. -/
structure FailsBehind (text front rest : List Char) : Prop where
  split : text = front ++ rest
  viable : Viable front
  stuck : ∀ c ∈ rest.head?, ¬Viable (front ++ [c])

/-- The ways in which a text fails to start with a number: an exponent without digits, or something behind a numeral
that may not follow it. -/
inductive Broken : (front rest : List Char) → Fault → Prop
  | exponent {n : Numeral} {mark : Char} {sign : Option Char} {rest : List Char} (hn : n.Proper)
      (he : n.exponent = none) (hmark : mark = 'e' ∨ mark = 'E') (hsign : ∀ c ∈ sign, c = '+' ∨ c = '-')
      (hdigit : ∀ c ∈ rest.head?, c.isDigit = false) (hrest : sign = none → ∀ c ∈ rest.head?, ¬(c = '+' ∨ c = '-')) :
      Broken (n.chars ++ mark :: sign.toList) rest .missingExponent
  | follow {n : Numeral} {rest : List Char} {fault : Fault} (hn : n.Proper) (hstops : n.Stops rest)
      (hfault : followFault? rest = some fault) : Broken n.chars rest fault

/-- What is broken is so by the next character at most. -/
theorem Broken.of_head? (h : Broken front rest fault) (hhead : rest'.head? = rest.head?) : Broken front rest' fault := by
  cases h with
  | exponent hn he hmark hsign hdigit hrest =>
    rw [← hhead] at hdigit hrest
    exact .exponent hn he hmark hsign hdigit hrest
  | follow hn hstops hfault =>
    obtain ⟨hdigit, hmark, hperiod⟩ := hstops
    rw [← hhead] at hdigit hmark hperiod
    refine .follow hn ⟨hdigit, hmark, hperiod⟩ ?_
    cases rest <;> cases rest' <;> simp_all [followFault?]

theorem Broken.readNumber_eq (h : Broken front rest fault) :
    readNumber (front ++ rest) = ⟨front, rest, .error fault⟩ := by
  cases h with
  | @exponent n mark sign _ hn he hmark hsign hdigit hrest =>
    have hhead : ∀ c ∈ (mark :: (sign.toList ++ rest)).head?, c.isDigit = false ∧ c ≠ '.' := by
      intro c hc
      cases hc
      rcases hmark with rfl | rfl <;> decide
    have hnone : rest.takeWhile Char.isDigit = [] := by
      cases rest with
      | nil => rfl
      | cons c cs => exact List.takeWhile_cons_of_neg (by simp [hdigit c rfl])
    rw [List.append_assoc, List.cons_append, readNumber,
      mantissa_chars_append hn he (fun c hc => (hhead c hc).1) (fun _ c hc => (hhead c hc).2)]
    simp only [exponentPart, if_pos hmark, signPart_append hsign hrest, hnone]
  | follow hn hstops hfault => rw [readNumber_append hn hstops, Numeral.reading, hfault]

theorem Broken.not_startsWith (h : Broken front rest fault) : ¬StartsWith (front ++ rest) n rest' := by
  intro hn
  have hread := hn.readNumber_eq
  rw [h.readNumber_eq] at hread
  cases congrArg Reading.result hread

theorem Broken.viable (h : Broken front rest fault) : Viable front := by
  cases h with
  | @exponent n mark sign _ hn he hmark hsign hdigit hrest =>
    -- one digit makes the exponent complete
    have hproper : Numeral.Proper { n with exponent := some ⟨mark, sign, ['0']⟩ } := by
      refine ⟨hn.whole, hn.fraction, ?_, hn.start⟩
      rintro e ⟨⟩
      exact ⟨hmark, hsign, by simp, by simp⟩
    refine ⟨['0'], _, [], startsWith_iff.mpr ⟨hproper, ?_, ends_nil⟩⟩
    rw [Numeral.chars_of_exponent he]
    simp [Exponent.chars]
  | follow hn hstops hfault => exact ⟨[], _, [], startsWith_iff.mpr ⟨hn, rfl, ends_nil⟩⟩

theorem Broken.failsBehind (h : Broken front rest fault) : FailsBehind (front ++ rest) front rest := by
  refine ⟨rfl, h.viable, fun c hc => ?_⟩
  rintro ⟨more, n, rest', hn⟩
  rw [List.append_assoc] at hn
  have hhead : ([c] ++ more).head? = rest.head? := (Option.mem_def.mp hc).symm
  exact (h.of_head? hhead).not_startsWith hn

theorem Broken.fault_eq (h : Broken front rest fault) :
    fault = .missingExponent ∨ fault = .nameAfterNumber ∨ fault = .strayPeriod := by
  cases h with
  | exponent => exact .inl rfl
  | follow hn hstops hfault =>
    unfold followFault? at hfault
    split at hfault
    · cases hfault
    · split at hfault
      · cases hfault
        exact .inr (.inl rfl)
      · split at hfault
        · cases hfault
          exact .inr (.inr rfl)
        · cases hfault

theorem Broken.message_mem (h : Broken front rest fault) :
    fault.message ∈ ["Expected exponent", "Variable names cannot start with a number", "Unexpected period"] := by
  rcases h.fault_eq with rfl | rfl | rfl
  · exact List.mem_cons_self ..
  · exact List.mem_cons_of_mem _ (List.mem_cons_self ..)
  · exact List.mem_cons_of_mem _ (List.mem_cons_of_mem _ (List.mem_cons_self ..))

/-! ### Each text is of one kind -/

/-- Behind a numeral with which the text does not go on, all is well or something may not follow. -/
theorem startsWith_or_broken (hn : n.Proper) (hstops : n.Stops rest) :
    StartsWith (n.chars ++ rest) n rest ∨ ∃ fault, Broken n.chars rest fault := by
  cases hfault : followFault? rest with
  | some fault => exact .inr ⟨fault, .follow hn hstops hfault⟩
  | none => exact .inl (startsWith_iff.mpr ⟨hn, rfl, ends_of_followFault? hstops.digit hfault⟩)

/-- Where a number may stand, the text starts with one or is broken behind some part of it. -/
theorem exists_startsWith_or_broken {d : Char} {ds : List Char}
    (h : d.isDigit = true ∨ d = '.' ∧ ds.head?.any Char.isDigit = true) :
    (∃ n rest, StartsWith (d :: ds) n rest) ∨ ∃ front rest fault, d :: ds = front ++ rest ∧ Broken front rest fault := by
  have hm := proper_mantissa h
  have hnone := mantissa_exponent (d :: ds)
  have happend := append_mantissa (d :: ds)
  obtain ⟨hdigit, hperiod⟩ := mantissa_rest (d :: ds)
  generalize (mantissa (d :: ds)).1 = m at hm hnone happend hperiod
  generalize (mantissa (d :: ds)).2 = rest at happend hdigit hperiod
  have hcases {n : Numeral} {rest : List Char} (hn : n.Proper) (hstops : n.Stops rest)
      (hsplit : n.chars ++ rest = d :: ds) :
      (∃ n rest, StartsWith (d :: ds) n rest) ∨
        ∃ front rest fault, d :: ds = front ++ rest ∧ Broken front rest fault := by
    rcases startsWith_or_broken hn hstops with hstarts | ⟨fault, hbroken⟩
    · exact .inl ⟨n, rest, hsplit ▸ hstarts⟩
    · exact .inr ⟨_, rest, fault, hsplit.symm, hbroken⟩
  cases hpart : exponentPart rest with
  | absent => exact hcases hm ⟨hdigit, fun _ => not_mark_of_exponentPart hpart, fun _ => hperiod⟩ happend
  | present e rest' =>
    have hproper : Numeral.Proper { m with exponent := some e } := by
      refine ⟨hm.whole, hm.fraction, ?_, hm.start⟩
      rintro e' ⟨⟩
      exact proper_of_exponentPart hpart
    have hstops : Numeral.Stops { m with exponent := some e } rest' := by
      refine ⟨not_isDigit_of_exponentPart hpart, ?_, ?_⟩
      · rintro ⟨⟩
      · rintro ⟨⟩
    refine hcases hproper hstops ?_
    rw [Numeral.chars_of_exponent hnone, List.append_assoc, append_of_exponentPart_present hpart, happend]
  | broken used rest' =>
    have hsplit := append_of_exponentPart_broken hpart
    obtain ⟨mark, sign, hmark, hsign, rfl, hdigit', hnosign⟩ := exists_of_exponentPart_broken hpart
    refine .inr ⟨_, rest', _, ?_, .exponent hm hnone hmark hsign hdigit' hnosign⟩
    rw [List.append_assoc, hsplit, happend]

/-! ### Steps at a number -/

namespace Cursor

variable {c : Cursor} {d : Char} {ds : List Char}

theorem next_of_startsWith (hrest : c.rest.dropWhile isBlank = d :: ds)
    (hstart : startsNumber c.afterOperand d ds = true) (h : StartsWith (d :: ds) n rest) :
    let start := c.offset + byteLength (c.rest.takeWhile isBlank)
    let stop := start + byteLength n.chars
    c.next = (.ok ⟨.number n.value, String.ofList n.chars, ⟨start, stop⟩⟩, ⟨rest, stop, true⟩) := by
  have hread : readToken c.afterOperand d ds = ⟨n.chars, rest, .ok (.number n.value)⟩ := by
    rw [readToken, if_pos hstart, h.readNumber_eq]
  simp only [next, hrest, hread, Reading.answer, TokenKind.endsOperand]

/-- The error is told of the character behind what might have been a number; at the end its span is empty. -/
theorem next_of_broken (hrest : c.rest.dropWhile isBlank = d :: ds)
    (hstart : startsNumber c.afterOperand d ds = true) (hsplit : d :: ds = front ++ rest)
    (h : Broken front rest fault) :
    let stop := c.offset + byteLength (c.rest.takeWhile isBlank) + byteLength front
    c.next = (.error ⟨fault, ⟨stop, stop + (rest.head?.map Char.utf8Size).getD 0⟩⟩, ⟨rest, stop, c.afterOperand⟩) := by
  have hread : readToken c.afterOperand d ds = ⟨front, rest, .error fault⟩ := by
    rw [readToken, if_pos hstart, hsplit, h.readNumber_eq]
  simp only [next, hrest, hread, Reading.answer]
  rcases h.fault_eq with rfl | rfl | rfl <;> rfl

/-- At a digit, and at a period in front of one unless an operand ended before it, a number is read just if the text
starts with one, and the token is all of that number. Otherwise one of three errors is told, at the first place where
no number could go on. The text of the token is a proper numeral, so any conversion that accepts these accepts it. -/
theorem next_number (hrest : c.rest.dropWhile isBlank = d :: ds)
    (hstart : d.isDigit = true ∨ d = '.' ∧ ds.head?.any Char.isDigit = true ∧ c.afterOperand = false) :
    let start := c.offset + byteLength (c.rest.takeWhile isBlank)
    ((∃ t value, c.next.1 = .ok t ∧ t.kind = .number value) ↔ ∃ n rest, StartsWith (d :: ds) n rest) ∧
    (∀ n rest, StartsWith (d :: ds) n rest →
      let stop := start + byteLength n.chars
      c.next = (.ok ⟨.number n.value, String.ofList n.chars, ⟨start, stop⟩⟩, ⟨rest, stop, true⟩)) ∧
    ((¬∃ n rest, StartsWith (d :: ds) n rest) → ∃ front rest fault,
      let stop := start + byteLength front
      FailsBehind (d :: ds) front rest ∧ Broken front rest fault ∧
      fault.message ∈ ["Expected exponent", "Variable names cannot start with a number", "Unexpected period"] ∧
      c.next = (.error ⟨fault, ⟨stop, stop + (rest.head?.map Char.utf8Size).getD 0⟩⟩, ⟨rest, stop, c.afterOperand⟩)) ∧
    ∀ accepts : List Char → Prop, (∀ n : Numeral, n.Proper → accepts n.chars) →
      ∀ t value, c.next.1 = .ok t → t.kind = .number value → accepts t.text.toList := by
  have hstart' := startsNumber_iff.mpr hstart
  have hcases := exists_startsWith_or_broken (isDigit_or_of_startsNumber hstart')
  have hnumber : (∃ t value, c.next.1 = .ok t ∧ t.kind = .number value) ↔ ∃ n rest, StartsWith (d :: ds) n rest := by
    constructor
    · rintro ⟨t, value, ht, -⟩
      refine hcases.resolve_right ?_
      rintro ⟨front, rest, fault, hsplit, hbroken⟩
      rw [next_of_broken hrest hstart' hsplit hbroken] at ht
      cases ht
    · rintro ⟨n, rest, hn⟩
      exact ⟨_, n.value, congrArg Prod.fst (next_of_startsWith hrest hstart' hn), rfl⟩
  refine ⟨hnumber, fun n rest hn => next_of_startsWith hrest hstart' hn, fun hnone => ?_, ?_⟩
  · obtain ⟨front, rest, fault, hsplit, hbroken⟩ := hcases.resolve_left hnone
    exact ⟨front, rest, fault, hsplit ▸ hbroken.failsBehind, hbroken, hbroken.message_mem,
      next_of_broken hrest hstart' hsplit hbroken⟩
  · intro accepts haccepts t value ht hkind
    obtain ⟨n, rest, hn⟩ := hnumber.mp ⟨t, value, ht, hkind⟩
    rw [next_of_startsWith hrest hstart' hn] at ht
    obtain rfl := Except.ok.inj ht
    rw [String.toList_ofList]
    exact haccepts n hn.proper

/-- An exponent with a sign is read as a whole, and without a digit it is at fault at the end of the text. -/
theorem next_number_exponent :
    let n : Numeral := ⟨['2'], some ['5'], some ⟨'e', some '+', ['7']⟩⟩
    (⟨" 2.5e+7;".toList, 0, false⟩ : Cursor).next =
        (.ok ⟨.number n.value, "2.5e+7", ⟨1, 7⟩⟩, ⟨[';'], 7, true⟩) ∧
      FailsBehind "2.5e+".toList "2.5e+".toList [] ∧
      (⟨" 2.5e+".toList, 0, false⟩ : Cursor).next.1 = .error ⟨.missingExponent, ⟨6, 6⟩⟩ := by
  intro n
  have hn : StartsWith "2.5e+7;".toList n [';'] := by
    have hexponent : Exponent.Proper ⟨'e', some '+', ['7']⟩ := by
      refine ⟨.inl rfl, ?_, List.forall_mem_singleton.mpr rfl, List.cons_ne_nil _ _⟩
      rintro c ⟨⟩
      exact .inl rfl
    have hproper : n.Proper := by
      refine ⟨List.forall_mem_singleton.mpr rfl, ?_, ?_, .inl (List.cons_ne_nil _ _)⟩
      · rintro ds ⟨⟩
        exact List.forall_mem_singleton.mpr rfl
      · rintro e ⟨⟩
        exact hexponent
    have hends : Ends [';'] := by
      rintro c ⟨⟩
      decide
    exact startsWith_iff.mpr ⟨hproper, rfl, hends⟩
  have hwhole := next_number (c := ⟨" 2.5e+7;".toList, 0, false⟩) (d := '2') rfl (.inl rfl)
  have hbroken := next_number (c := ⟨" 2.5e+".toList, 0, false⟩) (d := '2') rfl (.inl rfl)
  have herror : (⟨" 2.5e+".toList, 0, false⟩ : Cursor).next.1 = .error ⟨.missingExponent, ⟨6, 6⟩⟩ := rfl
  have hnone : ¬∃ n rest, StartsWith "2.5e+".toList n rest := by
    intro h
    obtain ⟨t, value, ht, -⟩ := hbroken.1.mpr h
    rw [herror] at ht
    cases ht
  obtain ⟨front, rest, fault, hfails, -, -, hnext⟩ := hbroken.2.2.1 hnone
  have hend : (⟨" 2.5e+".toList, 0, false⟩ : Cursor).next.2.rest = [] := rfl
  rw [hnext] at hend
  obtain rfl : rest = [] := hend
  have hfront : "2.5e+".toList = front := hfails.split.trans (List.append_nil front)
  exact ⟨hwhole.2.1 n _ hn, by rw [← hfront] at hfails; exact hfails, herror⟩

end Cursor

end TemplateSyntax.Expr
