import TemplateSyntax.Json.Span

/-!
# Reading JSON texts

What is written of a value can be read in one way only: strings end at a quote that is not escaped, numbers and other
words where something stands that is in no word, arrays and objects at their brackets. So values with the same text have
the same outline (`outline_of_write`), which has the words in place of what they stand for. More cannot be told from a
text: a double that is infinite is written like `null`.
-/

namespace TemplateSyntax.Json

open Decimal (Binary64)
open Text (hexPair)

/-! ### Strings -/

def hexValue (c : Char) : Nat :=
  if c.isDigit then c.toNat - '0'.toNat else c.toNat - 'a'.toNat + 10

/-- The character that is escaped by a backslash and a letter, or itself. -/
def unescapeLetter (c : Char) : Char :=
  if c = 'b' then '\x08'
  else if c = 't' then '\t'
  else if c = 'n' then '\n'
  else if c = 'f' then '\x0c'
  else if c = 'r' then '\r'
  else c

/-- The first character of a string that is written without its quotes, and the rest. -/
def unescape? : List Char → Option (Char × List Char)
  | '\\' :: 'u' :: _ :: _ :: high :: low :: rest => some (Char.ofNat (16 * hexValue high + hexValue low), rest)
  | '\\' :: letter :: rest => some (unescapeLetter letter, rest)
  | c :: rest => some (c, rest)
  | [] => none

theorem hexValue_digitChar {n : Nat} (h : n < 16) : hexValue (Nat.digitChar n) = n := by
  have hall : ∀ n < 16, hexValue (Nat.digitChar n) = n := by decide
  exact hall n h

/-- Escaping loses nothing, whatever follows. -/
theorem unescape?_escape (c : Char) (rest : List Char) : unescape? (escape c ++ rest) = some (c, rest) := by
  unfold escape
  split
  · next h => subst h; rfl
  split
  · next h => subst h; rfl
  split
  · next h => subst h; rfl
  split
  · next h => subst h; rfl
  split
  · next h => subst h; rfl
  split
  · next h => subst h; rfl
  split
  · next h => subst h; rfl
  split
  · next hcontrol =>
    have hcode : 16 * (c.toNat / 16) + c.toNat % 16 = c.toNat := Nat.div_add_mod ..
    have hhigh : c.toNat / 16 < 16 := by omega
    have hlow : c.toNat % 16 < 16 := by omega
    simp only [hexPair, List.cons_append, List.nil_append, unescape?, hexValue_digitChar hhigh,
      hexValue_digitChar hlow, hcode, Char.ofNat_toNat]
  · next hbackslash _ _ _ _ _ _ =>
    rw [List.singleton_append]
    unfold unescape?
    split <;> simp_all

theorem escape_append_inj {c d : Char} {x y : List Char} (h : escape c ++ x = escape d ++ y) : c = d ∧ x = y := by
  have hread := congrArg unescape? h
  rw [unescape?_escape, unescape?_escape] at hread
  exact Prod.mk.inj (Option.some.inj hread)

/-- Nothing in a string looks like the quote at its end. -/
theorem escape_append_ne (c : Char) (x y : List Char) : escape c ++ x ≠ '"' :: y := by
  intro h
  have hread := congrArg unescape? h
  rw [unescape?_escape] at hread
  obtain ⟨rfl, -⟩ := Prod.mk.inj (Option.some.inj hread)
  cases h

theorem flatMap_escape_append_inj {cs ds x y : List Char}
    (h : cs.flatMap escape ++ '"' :: x = ds.flatMap escape ++ '"' :: y) : cs = ds ∧ x = y := by
  induction cs generalizing ds with
  | nil =>
    cases ds with
    | nil => exact ⟨rfl, List.tail_eq_of_cons_eq h⟩
    | cons d ds =>
      rw [List.flatMap_cons, List.append_assoc] at h
      exact absurd h.symm (escape_append_ne d _ _)
  | cons c cs ih =>
    rw [List.flatMap_cons, List.append_assoc] at h
    cases ds with
    | nil => exact absurd h (escape_append_ne c _ _)
    | cons d ds =>
      rw [List.flatMap_cons, List.append_assoc] at h
      obtain ⟨rfl, hbody⟩ := escape_append_inj h
      obtain ⟨rfl, hxy⟩ := ih hbody
      exact ⟨rfl, hxy⟩

theorem quoted_append (s : String) (x : List Char) :
    quoted s ++ x = '"' :: (s.toList.flatMap escape ++ '"' :: x) := by
  simp [quoted]

theorem quoted_append_inj {s t : String} {x y : List Char} (h : quoted s ++ x = quoted t ++ y) : s = t ∧ x = y := by
  rw [quoted_append, quoted_append] at h
  obtain ⟨hst, hxy⟩ := flatMap_escape_append_inj (List.tail_eq_of_cons_eq h)
  exact ⟨String.toList_inj.mp hst, hxy⟩

/-! ### Words -/

/-- The characters around values. -/
def separators : List Char := ['"', ',', ':', '[', ']', '\x7b', '\x7d', ' ', '\n']

/-- A number, or one of `true`, `false` and `null`. -/
structure IsWord (w : List Char) : Prop where
  ne_nil : w ≠ []
  plain : ∀ c ∈ w, c ∉ separators

instance (w : List Char) : Decidable (IsWord w) :=
  decidable_of_iff (w ≠ [] ∧ (w.all fun c => !separators.contains c) = true)
    ⟨fun ⟨hne, hall⟩ => ⟨hne, by simpa using hall⟩, fun h => ⟨h.ne_nil, by simpa using h.plain⟩⟩

/-- No word goes on here. -/
def Ends (rest : List Char) : Prop :=
  ∀ c ∈ rest.head?, c ∈ separators

theorem word_append_inj {w v x y : List Char} (hw : ∀ c ∈ w, c ∉ separators) (hv : ∀ c ∈ v, c ∉ separators)
    (hx : Ends x) (hy : Ends y) (h : w ++ x = v ++ y) : w = v ∧ x = y := by
  induction w generalizing v with
  | nil =>
    cases v with
    | nil => exact ⟨rfl, h⟩
    | cons d v => exact absurd (hx d (by rw [← List.nil_append x, h]; rfl)) (hv d (List.mem_cons_self ..))
  | cons c w ih =>
    cases v with
    | nil => exact absurd (hy c (by rw [← List.nil_append y, ← h]; rfl)) (hw c (List.mem_cons_self ..))
    | cons d v =>
      obtain ⟨rfl, htail⟩ := List.cons.inj h
      obtain ⟨rfl, hxy⟩ := ih (List.forall_mem_cons.mp hw).2 (List.forall_mem_cons.mp hv).2 htail
      exact ⟨rfl, hxy⟩

theorem notMem_separators_of_isDigit {c : Char} (h : c.isDigit = true) : c ∉ separators := by
  intro hmem
  have hall : (separators.all fun d => !d.isDigit) = true := by decide
  have hnot := List.all_eq_true.mp hall c hmem
  rw [h] at hnot
  cases hnot

theorem isWord_toDigits (n : Nat) : IsWord (Nat.toDigits 10 n) where
  ne_nil := Nat.toDigits_ne_nil
  plain c hc := notMem_separators_of_isDigit (Nat.isDigit_of_mem_toDigits (by decide) (by decide) hc)

section Doubles

variable {digits : List Char} (hdigits : ∀ c ∈ digits, c ∉ separators)

include hdigits

theorem notMem_separators_of_mem_plain (x : Int) : ∀ c ∈ Decimal.plain digits x, c ∉ separators := by
  have hzeros (n : Nat) : ∀ c ∈ List.replicate n '0', c ∉ separators := by
    intro c hc
    rw [List.eq_of_mem_replicate hc]
    decide
  unfold Decimal.plain
  split
  · exact List.forall_mem_append.mpr
      ⟨List.forall_mem_cons.mpr ⟨by decide, List.forall_mem_cons.mpr ⟨by decide, hzeros _⟩⟩, hdigits⟩
  · dsimp only
    split
    · exact List.forall_mem_append.mpr ⟨List.forall_mem_append.mpr ⟨hdigits, hzeros _⟩,
        List.forall_mem_cons.mpr ⟨by decide, List.forall_mem_singleton.mpr (by decide)⟩⟩
    · refine List.forall_mem_append.mpr ⟨fun c hc => hdigits c (List.mem_of_mem_take hc), ?_⟩
      exact List.forall_mem_cons.mpr ⟨by decide, fun c hc => hdigits c (List.mem_of_mem_drop hc)⟩

theorem notMem_separators_of_mem_scientific (x : Int) : ∀ c ∈ Decimal.scientific digits x, c ∉ separators := by
  unfold Decimal.scientific
  refine List.forall_mem_append.mpr ⟨?_, List.forall_mem_cons.mpr ⟨by decide, List.forall_mem_cons.mpr ⟨?_, ?_⟩⟩⟩
  · split
    · simp only [List.forall_mem_cons] at hdigits ⊢
      exact ⟨hdigits.1, by decide, hdigits.2⟩
    · exact hdigits
  · split <;> decide
  · exact (isWord_toDigits _).plain

theorem isWord_layout (x : Int) : IsWord (Decimal.layout digits x) := by
  unfold Decimal.layout
  split
  · refine ⟨?_, notMem_separators_of_mem_plain hdigits x⟩
    unfold Decimal.plain
    dsimp only
    split
    · simp
    · split <;> simp
  · refine ⟨?_, notMem_separators_of_mem_scientific hdigits x⟩
    simp [Decimal.scientific]

end Doubles

theorem isWord_doubleText (x : Binary64) : IsWord (doubleText x) := by
  unfold doubleText Binary64.text?
  split
  · decide
  · decide
  · refine isWord_layout (fun c hc => ?_) _
    have hall := (List.dropWhile_sublist _).subset (List.mem_reverse.mp hc)
    exact (isWord_toDigits _).plain c (List.mem_reverse.mp hall)

/-! ### Outlines -/

/-- What a text tells of a value. -/
inductive Outline where
  | word (text : List Char)
  | str (s : String)
  | arr (items : List Outline)
  | obj (fields : List (String × Outline))

mutual

def outline : Json → Outline
  | .null => .word ['n', 'u', 'l', 'l']
  | .bool true => .word ['t', 'r', 'u', 'e']
  | .bool false => .word ['f', 'a', 'l', 's', 'e']
  | .nat n => .word (Nat.toDigits 10 n)
  | .double x => .word (doubleText x)
  | .str s => .str s
  | .arr items => .arr (outlineItems items)
  | .obj fields => .obj (outlineFields fields)

def outlineItems : List Json → List Outline
  | [] => []
  | x :: xs => x.outline :: outlineItems xs

def outlineFields : List (String × Json) → List (String × Outline)
  | [] => []
  | (key, x) :: fields => (key, x.outline) :: outlineFields fields

end

/-! ### Parts of outlines -/

theorem outlineFields_eq_map (fields : List (String × Json)) :
    outlineFields fields = fields.map fun (key, x) => (key, x.outline) := by
  induction fields with
  | nil => rfl
  | cons f fields ih => rw [outlineFields, ih, List.map_cons]

theorem outlineFields_append (fields gs : List (String × Json)) :
    outlineFields (fields ++ gs) = outlineFields fields ++ outlineFields gs := by
  simp only [outlineFields_eq_map, List.map_append]

theorem toDigits_injective : Function.Injective (Nat.toDigits 10) := by
  intro m n h
  calc
    m = Nat.ofDigitChars 10 (Nat.toDigits 10 m) 0 := Nat.ofDigitChars_ten_toDigits.symm
    _ = Nat.ofDigitChars 10 (Nat.toDigits 10 n) 0 := by rw [h]
    _ = n := Nat.ofDigitChars_ten_toDigits

theorem outline_nat_inj {m n : Nat} : (nat m).outline = (nat n).outline ↔ m = n := by
  rw [outline, outline, Outline.word.injEq, toDigits_injective.eq_iff]

theorem outline_bool_inj {b b' : Bool} : (bool b).outline = (bool b').outline ↔ b = b' := by
  cases b <;> cases b' <;> simp [outline]

theorem outline_str_inj {s t : String} : (str s).outline = (str t).outline ↔ s = t := by
  rw [outline, outline, Outline.str.injEq]

theorem outline_arr_inj {xs ys : List Json} :
    (arr xs).outline = (arr ys).outline ↔ outlineItems xs = outlineItems ys := by
  rw [outline, outline, Outline.arr.injEq]

theorem outline_obj_inj {fields gs : List (String × Json)} :
    (obj fields).outline = (obj gs).outline ↔ outlineFields fields = outlineFields gs := by
  rw [outline, outline, Outline.obj.injEq]

theorem outlineFields_cons_inj {key key' : String} {x y : Json} {fields gs : List (String × Json)} :
    outlineFields ((key, x) :: fields) = outlineFields ((key', y) :: gs) ↔
      key = key' ∧ x.outline = y.outline ∧ outlineFields fields = outlineFields gs := by
  rw [outlineFields, outlineFields, List.cons.injEq, Prod.mk.injEq, and_assoc]

/-- The last two fields of an object tell its span. -/
theorem outline_spanned_inj {fields gs : List (String × Json)} {s t : Span} :
    (obj (fields ++ s.fields)).outline = (obj (gs ++ t.fields)).outline ↔
      outlineFields fields = outlineFields gs ∧ s = t := by
  refine ⟨fun h => ?_, fun ⟨hfields, hspan⟩ => ?_⟩
  · rw [outline_obj_inj, outlineFields_append, outlineFields_append] at h
    obtain ⟨hfields, hspan⟩ := List.append_inj' h rfl
    simp only [Span.fields, outlineFields_cons_inj, outline_nat_inj, true_and, and_true] at hspan
    exact ⟨hfields, Span.mk.injEq .. ▸ hspan⟩
  · rw [outline_obj_inj, outlineFields_append, outlineFields_append, hfields, hspan]

/-! ### First characters -/

/-- The first character of a string, array or object. -/
def opening? : Json → Option Char
  | .str _ => some '"'
  | .arr _ => some '['
  | .obj _ => some '\x7b'
  | _ => none

/-- Any other value is a word, whatever the style. -/
theorem exists_word {j : Json} (h : j.opening? = none) :
    ∃ w, IsWord w ∧ j.outline = .word w ∧ ∀ style depth rest, j.write style depth rest = w ++ rest := by
  cases j with
  | null => exact ⟨['n', 'u', 'l', 'l'], by decide, rfl, fun _ _ _ => rfl⟩
  | bool b =>
    cases b
    · exact ⟨['f', 'a', 'l', 's', 'e'], by decide, rfl, fun _ _ _ => rfl⟩
    · exact ⟨['t', 'r', 'u', 'e'], by decide, rfl, fun _ _ _ => rfl⟩
  | nat n => exact ⟨_, isWord_toDigits n, rfl, fun _ _ _ => by rw [write]⟩
  | double x => exact ⟨_, isWord_doubleText x, rfl, fun _ _ _ => by rw [write]⟩
  | str | arr | obj => cases h

/-! ### Texts -/

/-- Between the items of an array or object there are blanks only. -/
def Style.Blank (style : Style) : Prop :=
  ∀ depth, ∀ c ∈ style.newline depth, c = ' ' ∨ c = '\n'

theorem blank_compact : Style.compact.Blank :=
  fun _ _ hc => absurd hc List.not_mem_nil

theorem blank_pretty : Style.pretty.Blank := by
  intro depth c hc
  rcases List.mem_cons.mp hc with rfl | hc
  · exact .inr rfl
  · exact .inl (List.eq_of_mem_replicate hc)

/-- The first character tells whether a value is a word. -/
theorem head_write (style : Style) (depth : Nat) (j : Json) (rest : List Char) :
    ∃ c cs, j.write style depth rest = c :: cs ∧ j.opening? = if c ∈ separators then some c else none := by
  cases hopening : j.opening? with
  | none =>
    obtain ⟨w, hw, -, hwrite⟩ := exists_word hopening
    obtain ⟨c, w, rfl⟩ := List.exists_cons_of_ne_nil hw.ne_nil
    exact ⟨c, w ++ rest, hwrite .., by rw [if_neg (hw.plain c (List.mem_cons_self ..))]⟩
  | some b =>
    cases j with
    | str s =>
      cases hopening
      exact ⟨'"', _, by rw [write, quoted_append], rfl⟩
    | arr items =>
      cases hopening
      cases items <;> exact ⟨'[', _, by rw [write], rfl⟩
    | obj fields =>
      cases hopening
      rcases fields with _ | ⟨⟨key, x⟩, fields⟩ <;> exact ⟨'\x7b', _, by rw [write], rfl⟩
    | _ => cases hopening

section Style

variable {style : Style} {depth : Nat} {j k : Json} {rest rest' : List Char}

theorem opening?_eq_of_write (h : j.write style depth rest = k.write style depth rest') : j.opening? = k.opening? := by
  obtain ⟨c, cs, hwrite, hopening⟩ := head_write style depth j rest
  obtain ⟨d, ds, hwrite', hopening'⟩ := head_write style depth k rest'
  obtain ⟨rfl, -⟩ := List.cons.inj (hwrite.symm.trans (h.trans hwrite'))
  rw [hopening, hopening']

/-- A word ends where something stands that is in no word. -/
theorem outline_of_write_word (hj : j.opening? = none) (hrest : Ends rest) (hrest' : Ends rest')
    (h : j.write style depth rest = k.write style depth rest') : j.outline = k.outline ∧ rest = rest' := by
  obtain ⟨w, hw, houtline, hwrite⟩ := exists_word hj
  obtain ⟨v, hv, houtline', hwrite'⟩ := exists_word ((opening?_eq_of_write h).symm.trans hj)
  rw [hwrite, hwrite'] at h
  obtain ⟨rfl, hbehind⟩ := word_append_inj hw.plain hv.plain hrest hrest' h
  exact ⟨houtline.trans houtline'.symm, hbehind⟩

theorem ends_writeItems (hrest : Ends rest) (xs : List Json) : Ends (writeItems style depth xs rest) := by
  cases xs with
  | nil => exact hrest
  | cons x xs =>
    rintro _ ⟨⟩
    decide

theorem ends_writeFields (hrest : Ends rest) (fields : List (String × Json)) :
    Ends (writeFields style depth fields rest) := by
  rcases fields with _ | ⟨⟨key, x⟩, fields⟩
  · exact hrest
  · rintro _ ⟨⟩
    decide

section Blank

variable (hstyle : style.Blank)

include hstyle

/-- An item, behind its blanks, does not begin like the end of the array. -/
theorem newline_write_ne (x : Json) (y : List Char) (n : Nat) :
    style.newline n ++ x.write style depth rest ≠ ']' :: y := by
  cases hnewline : style.newline n with
  | cons c cs =>
    rintro ⟨⟩
    exact absurd (hstyle n ']' (hnewline ▸ List.mem_cons_self ..)) (by decide)
  | nil =>
    rw [List.nil_append]
    intro h
    obtain ⟨c, cs, hwrite, hopening⟩ := head_write style depth x rest
    obtain ⟨rfl, -⟩ := List.cons.inj (hwrite.symm.trans h)
    cases x <;> cases hopening

/-- A key, behind its blanks, does not begin like the end of the object. -/
theorem newline_quoted_ne (key : String) (x y : List Char) (n : Nat) :
    style.newline n ++ (quoted key ++ x) ≠ '\x7d' :: y := by
  rw [quoted_append]
  cases hnewline : style.newline n with
  | cons c cs =>
    rintro ⟨⟩
    exact absurd (hstyle n '\x7d' (hnewline ▸ List.mem_cons_self ..)) (by decide)
  | nil => rintro ⟨⟩

/-- The end of an array or object, behind its blanks, does not go on a word and is no comma. -/
theorem ends_newline (bracket : Char) (hbracket : bracket ∈ separators) (hcomma : bracket ≠ ',') (n : Nat)
    (y : List Char) :
    Ends (style.newline n ++ bracket :: y) ∧ (style.newline n ++ bracket :: y).head? ≠ some ',' := by
  cases hnewline : style.newline n with
  | cons c cs =>
    have hblank := hstyle n c (hnewline ▸ List.mem_cons_self ..)
    refine ⟨?_, ?_⟩
    · rintro _ ⟨⟩
      rcases hblank with rfl | rfl <;> decide
    · rintro ⟨⟩
      exact absurd hblank (by decide)
  | nil =>
    refine ⟨?_, ?_⟩
    · rintro _ ⟨⟩
      exact hbracket
    · rintro ⟨⟩
      exact hcomma rfl

end Blank

mutual

/-- Values that are written alike have the same outline, and the same stands behind them. -/
theorem outline_of_write (hstyle : style.Blank) {depth : Nat} {j k : Json} {rest rest' : List Char}
    (hrest : Ends rest) (hrest' : Ends rest') (h : j.write style depth rest = k.write style depth rest') :
    j.outline = k.outline ∧ rest = rest' := by
  have hopening := opening?_eq_of_write h
  match j with
  | .null | .bool _ | .nat _ | .double _ => exact outline_of_write_word rfl hrest hrest' h
  | .str s =>
    cases k with
    | str t =>
      rw [write, write] at h
      obtain ⟨rfl, hend⟩ := quoted_append_inj h
      exact ⟨rfl, hend⟩
    | _ => cases hopening
  | .arr [] =>
    cases k with
    | arr ys =>
      cases ys with
      | nil =>
        rw [write, write] at h
        exact ⟨rfl, List.tail_eq_of_cons_eq (List.tail_eq_of_cons_eq h)⟩
      | cons y ys =>
        rw [write, write] at h
        exact absurd (List.tail_eq_of_cons_eq h).symm (newline_write_ne hstyle y _ _)
    | _ => cases hopening
  | .arr (x :: xs) =>
    cases k with
    | arr ys =>
      cases ys with
      | nil =>
        rw [write, write] at h
        exact absurd (List.tail_eq_of_cons_eq h) (newline_write_ne hstyle x _ _)
      | cons y ys =>
        rw [write, write] at h
        have hend := ends_newline hstyle ']' (by decide) (by decide) depth rest
        have hend' := ends_newline hstyle ']' (by decide) (by decide) depth rest'
        obtain ⟨hx, htail⟩ := outline_of_write hstyle (ends_writeItems hend.1 xs) (ends_writeItems hend'.1 ys)
          (List.append_cancel_left (List.tail_eq_of_cons_eq h))
        obtain ⟨hxs, hbehind⟩ := outlineItems_of_write hstyle hend hend' htail
        refine ⟨?_, List.tail_eq_of_cons_eq (List.append_cancel_left hbehind)⟩
        simp only [outline, outlineItems, hx, hxs]
    | _ => cases hopening
  | .obj [] =>
    cases k with
    | obj gs =>
      rcases gs with _ | ⟨⟨key, y⟩, gs⟩
      · rw [write, write] at h
        exact ⟨rfl, List.tail_eq_of_cons_eq (List.tail_eq_of_cons_eq h)⟩
      · rw [write, write] at h
        exact absurd (List.tail_eq_of_cons_eq h).symm (newline_quoted_ne hstyle key _ _ _)
    | _ => cases hopening
  | .obj ((key, x) :: fields) =>
    cases k with
    | obj gs =>
      rcases gs with _ | ⟨⟨key', y⟩, gs⟩
      · rw [write, write] at h
        exact absurd (List.tail_eq_of_cons_eq h) (newline_quoted_ne hstyle key _ _ _)
      · rw [write, write] at h
        have hend := ends_newline hstyle '\x7d' (by decide) (by decide) depth rest
        have hend' := ends_newline hstyle '\x7d' (by decide) (by decide) depth rest'
        obtain ⟨rfl, hvalue⟩ := quoted_append_inj (List.append_cancel_left (List.tail_eq_of_cons_eq h))
        obtain ⟨hx, htail⟩ := outline_of_write hstyle (ends_writeFields hend.1 fields) (ends_writeFields hend'.1 gs)
          (List.append_cancel_left hvalue)
        obtain ⟨hfields, hbehind⟩ := outlineFields_of_write hstyle hend hend' htail
        refine ⟨?_, List.tail_eq_of_cons_eq (List.append_cancel_left hbehind)⟩
        simp only [outline, outlineFields, hx, hfields]
    | _ => cases hopening

theorem outlineItems_of_write (hstyle : style.Blank) {depth : Nat} {xs ys : List Json} {rest rest' : List Char}
    (hrest : Ends rest ∧ rest.head? ≠ some ',') (hrest' : Ends rest' ∧ rest'.head? ≠ some ',')
    (h : writeItems style depth xs rest = writeItems style depth ys rest') :
    outlineItems xs = outlineItems ys ∧ rest = rest' := by
  match xs with
  | [] =>
    cases ys with
    | nil => exact ⟨rfl, h⟩
    | cons y ys => exact absurd (congrArg List.head? h) hrest.2
  | x :: xs =>
    cases ys with
    | nil => exact absurd (congrArg List.head? h).symm hrest'.2
    | cons y ys =>
      rw [writeItems, writeItems] at h
      obtain ⟨hx, htail⟩ := outline_of_write hstyle (ends_writeItems hrest.1 xs) (ends_writeItems hrest'.1 ys)
        (List.append_cancel_left (List.tail_eq_of_cons_eq h))
      obtain ⟨hxs, hbehind⟩ := outlineItems_of_write hstyle hrest hrest' htail
      simp only [outlineItems, hx, hxs, hbehind, and_self]

theorem outlineFields_of_write (hstyle : style.Blank) {depth : Nat} {fields gs : List (String × Json)}
    {rest rest' : List Char} (hrest : Ends rest ∧ rest.head? ≠ some ',') (hrest' : Ends rest' ∧ rest'.head? ≠ some ',')
    (h : writeFields style depth fields rest = writeFields style depth gs rest') :
    outlineFields fields = outlineFields gs ∧ rest = rest' := by
  match fields with
  | [] =>
    rcases gs with _ | ⟨⟨key, y⟩, gs⟩
    · exact ⟨rfl, h⟩
    · exact absurd (congrArg List.head? h) hrest.2
  | (key, x) :: fields =>
    rcases gs with _ | ⟨⟨key', y⟩, gs⟩
    · exact absurd (congrArg List.head? h).symm hrest'.2
    · rw [writeFields, writeFields] at h
      obtain ⟨rfl, hvalue⟩ := quoted_append_inj (List.append_cancel_left (List.tail_eq_of_cons_eq h))
      obtain ⟨hx, htail⟩ := outline_of_write hstyle (ends_writeFields hrest.1 fields) (ends_writeFields hrest'.1 gs)
        (List.append_cancel_left hvalue)
      obtain ⟨hfields, hbehind⟩ := outlineFields_of_write hstyle hrest hrest' htail
      simp only [outlineFields, hx, hfields, hbehind, and_self]

end

end Style

theorem ends_nil : Ends [] :=
  fun _ h => nomatch h

/-- Values with the same text have the same outline, in either layout. -/
theorem outline_of_compact {j k : Json} (h : j.compact = k.compact) : j.outline = k.outline :=
  (outline_of_write blank_compact ends_nil ends_nil (String.ofList_injective h)).1

theorem outline_of_pretty {j k : Json} (h : j.pretty = k.pretty) : j.outline = k.outline :=
  (outline_of_write blank_pretty ends_nil ends_nil (String.ofList_injective h)).1

end TemplateSyntax.Json
