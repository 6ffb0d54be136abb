import TemplateSyntax.Span
import TemplateSyntax.Text.Bytes
import TemplateSyntax.Text.Match

/-!
# Bytes and slices

A text takes its UTF-8 bytes. Those of an ASCII character are the one byte with its number, and those of any other
character all have greater numbers, so a byte with the number of an ASCII character is that character. A slice between
two byte offsets exists if both are boundaries of characters (`slice?_eq_some_iff`).
-/

namespace TemplateSyntax.Text

/-! ### Slices -/

/-- The text in front of the byte offset and the text behind it, if the offset is a boundary of characters. -/
def splitBytes? : (offset : Nat) → List Char → Option (List Char × List Char)
  | 0, cs => some ([], cs)
  | _ + 1, [] => none
  | n + 1, c :: cs =>
    if c.utf8Size ≤ n + 1 then (splitBytes? (n + 1 - c.utf8Size) cs).map fun (front, rest) => (c :: front, rest)
    else none

/-- The text from one byte offset to another. There is none if an offset lies inside a character or behind the end, or
the first one behind the second. -/
def slice? (cs : List Char) (s : Span) : Option (List Char) :=
  if s.start ≤ s.stop then
    (splitBytes? s.start cs).bind fun (_, rest) => (splitBytes? (s.stop - s.start) rest).map Prod.fst
  else none

theorem splitBytes?_eq_some_iff {n : Nat} {cs front rest : List Char} :
    splitBytes? n cs = some (front, rest) ↔ cs = front ++ rest ∧ n = byteLength front := by
  induction cs generalizing n front with
  | nil =>
    cases n with
    | zero =>
      constructor
      · rintro ⟨⟩
        exact ⟨rfl, rfl⟩
      · rintro ⟨hnil, -⟩
        obtain ⟨rfl, rfl⟩ := List.append_eq_nil_iff.mp hnil.symm
        rfl
    | succ n =>
      constructor
      · rintro ⟨⟩
      · rintro ⟨hnil, hn⟩
        rw [(List.append_eq_nil_iff.mp hnil.symm).1] at hn
        cases hn
  | cons c cs ih =>
    have hpos := c.utf8Size_pos
    cases n with
    | zero =>
      constructor
      · rintro ⟨⟩
        exact ⟨rfl, rfl⟩
      · rintro ⟨heq, hn⟩
        obtain rfl := byteLength_eq_zero.mp hn.symm
        rw [splitBytes?, heq, List.nil_append]
    | succ n =>
      rw [splitBytes?]
      constructor
      · intro h
        split at h
        · next hle =>
          obtain ⟨⟨front', rest'⟩, hsplit, heq⟩ := Option.map_eq_some_iff.mp h
          cases heq
          obtain ⟨rfl, hn⟩ := ih.mp hsplit
          exact ⟨rfl, by rw [byteLength_cons]; omega⟩
        · cases h
      · rintro ⟨heq, hn⟩
        cases front with
        | nil => cases hn
        | cons d front =>
          obtain ⟨rfl, hcs⟩ := List.cons.inj heq
          rw [byteLength_cons] at hn
          have hsplit := ih.mpr ⟨hcs, show n + 1 - c.utf8Size = byteLength front by omega⟩
          rw [if_pos (by omega), hsplit]
          rfl

theorem slice?_eq_some_iff {cs mid : List Char} {s : Span} :
    slice? cs s = some mid ↔
      ∃ before after, cs = before ++ mid ++ after ∧ s = ⟨byteLength before, byteLength before + byteLength mid⟩ := by
  unfold slice?
  constructor
  · intro h
    split at h
    · next hle =>
      obtain ⟨⟨before, rest⟩, hbefore, h⟩ := Option.bind_eq_some_iff.mp h
      obtain ⟨⟨mid', after⟩, hmid, rfl⟩ := Option.map_eq_some_iff.mp h
      obtain ⟨rfl, hstart⟩ := splitBytes?_eq_some_iff.mp hbefore
      obtain ⟨rfl, hlength⟩ := splitBytes?_eq_some_iff.mp hmid
      refine ⟨before, after, (List.append_assoc ..).symm, ?_⟩
      rw [← hstart, ← hlength, Nat.add_sub_cancel' hle]
    · cases h
  · rintro ⟨before, after, rfl, rfl⟩
    have hbefore := splitBytes?_eq_some_iff.mpr ⟨List.append_assoc before mid after, rfl⟩
    have hmid : splitBytes? (byteLength mid) (mid ++ after) = some (mid, after) := splitBytes?_eq_some_iff.mpr ⟨rfl, rfl⟩
    rw [if_pos (Nat.le_add_right ..), hbefore, Option.bind_some, Nat.add_sub_cancel_left]
    dsimp only
    rw [hmid]
    rfl

/-! ### Bytes -/

def utf8 (cs : List Char) : List UInt8 :=
  cs.flatMap String.utf8EncodeChar

/-- The characters with the numbers of the bytes. -/
def latin (bs : List UInt8) : List Char :=
  bs.map Char.ofUInt8

/-- The bytes of a string are those of its characters. -/
theorem toUTF8_eq (s : String) : s.toUTF8 = (utf8 s.toList).toByteArray := by
  rw [String.toUTF8_eq_toByteArray, ← String.utf8Encode_toList]
  rfl

@[simp] theorem utf8_nil : utf8 [] = [] := rfl

theorem utf8_cons (c : Char) (cs : List Char) : utf8 (c :: cs) = String.utf8EncodeChar c ++ utf8 cs := rfl

theorem utf8_append (cs ds : List Char) : utf8 (cs ++ ds) = utf8 cs ++ utf8 ds := by
  simp [utf8]

theorem length_utf8 (cs : List Char) : (utf8 cs).length = byteLength cs := by
  induction cs with
  | nil => rfl
  | cons c cs ih => rw [utf8_cons, List.length_append, String.length_utf8EncodeChar, ih, byteLength_cons]

theorem byteLength_toList (s : String) : byteLength s.toList = s.utf8ByteSize := by
  rw [← length_utf8, ← List.size_toByteArray, ← toUTF8_eq]
  rfl

/-- Behind the bytes of a text come those of what follows it. -/
theorem drop_utf8_append (before cs : List Char) : (utf8 (before ++ cs)).drop (byteLength before) = utf8 cs := by
  rw [utf8_append, ← length_utf8 before, List.drop_left]

def isAscii (c : Char) : Bool :=
  c.toNat < 128

theorem toNat_ofUInt8 (b : UInt8) : (Char.ofUInt8 b).toNat = b.toNat := rfl

theorem utf8EncodeChar_of_isAscii {c : Char} (h : isAscii c = true) :
    String.utf8EncodeChar c = [UInt8.ofNat c.toNat] := by
  have hc : c.toNat ≤ 127 := Nat.le_of_lt_succ (of_decide_eq_true h)
  exact if_pos hc

theorem ofUInt8_ofNat_toNat {c : Char} (h : isAscii c = true) : Char.ofUInt8 (UInt8.ofNat c.toNat) = c := by
  have hc : c.toNat < 128 := of_decide_eq_true h
  refine Char.toNat_inj.mp ?_
  rw [toNat_ofUInt8, UInt8.toNat_ofNat']
  exact Nat.mod_eq_of_lt (by omega)

theorem utf8Size_of_isAscii {c : Char} (h : isAscii c = true) : c.utf8Size = 1 := by
  rw [← String.length_utf8EncodeChar, utf8EncodeChar_of_isAscii h, List.length_singleton]

/-- The bytes of a character beyond ASCII have numbers beyond ASCII. -/
theorem isAscii_of_mem_utf8EncodeChar {c : Char} (h : isAscii c = false) {b : UInt8}
    (hb : b ∈ String.utf8EncodeChar c) : isAscii (Char.ofUInt8 b) = false := by
  have hc : ¬c.val.toNat ≤ 127 := fun hle => of_decide_eq_false h (Nat.lt_succ_of_le hle)
  have hwide {n m : Nat} (hn : b = UInt8.ofNat (n + m)) (hm : 128 ≤ m) (hlt : n + m < 256) :
      isAscii (Char.ofUInt8 b) = false := by
    refine decide_eq_false ?_
    rw [toNat_ofUInt8, hn, UInt8.toNat_ofNat', Nat.mod_eq_of_lt hlt]
    omega
  rw [String.utf8EncodeChar.eq_1, if_neg hc] at hb
  split at hb
  · simp only [List.mem_cons, List.not_mem_nil, or_false] at hb
    rcases hb with hb | hb <;> exact hwide hb (by omega) (by omega)
  split at hb
  · simp only [List.mem_cons, List.not_mem_nil, or_false] at hb
    rcases hb with hb | hb | hb <;> exact hwide hb (by omega) (by omega)
  · simp only [List.mem_cons, List.not_mem_nil, or_false] at hb
    rcases hb with hb | hb | hb | hb <;> exact hwide hb (by omega) (by omega)

/-! ### Fixed texts in bytes -/

theorem isPrefixOf?_eq_none_of_not_isAscii {a d : Char} (ha : isAscii a = true) (hd : isAscii d = false)
    (l ds : List Char) : (a :: l).isPrefixOf? (d :: ds) = none := by
  have had : (a == d) = false := by
    rw [beq_eq_false_iff_ne]
    rintro rfl
    rw [ha] at hd
    cases hd
  change (if a == d then l.isPrefixOf? ds else none) = none
  rw [had, if_neg Bool.false_ne_true]

/-- An ASCII text starts the bytes of a text if it starts the text. -/
theorem isPrefixOf?_latin_utf8 {l : List Char} (hl : ∀ c ∈ l, isAscii c = true) (cs : List Char) :
    l.isPrefixOf? (latin (utf8 cs)) = (l.isPrefixOf? cs).map fun rest => latin (utf8 rest) := by
  induction l generalizing cs with
  | nil => rfl
  | cons a l ih =>
    obtain ⟨ha, hl⟩ := List.forall_mem_cons.mp hl
    cases cs with
    | nil => rfl
    | cons c cs =>
      cases hc : isAscii c with
      | true =>
        rw [utf8_cons, utf8EncodeChar_of_isAscii hc, List.singleton_append, latin, List.map_cons, ofUInt8_ofNat_toNat hc]
        change (if a == c then l.isPrefixOf? (latin (utf8 cs)) else none) =
          (if a == c then l.isPrefixOf? cs else none).map _
        rw [ih hl]
        split <;> rfl
      | false =>
        -- neither the character nor its first byte is ASCII
        obtain ⟨b, bs, hbs⟩ := List.exists_cons_of_ne_nil (String.utf8EncodeChar_ne_nil (c := c))
        have hb := isAscii_of_mem_utf8EncodeChar hc (b := b) (by simp [hbs])
        rw [isPrefixOf?_eq_none_of_not_isAscii ha hc, utf8_cons, hbs]
        exact isPrefixOf?_eq_none_of_not_isAscii ha hb _ _

theorem firstMatch_latin_utf8 {α : Type} {text : α → List Char} {candidates : List α}
    (htext : ∀ a ∈ candidates, ∀ c ∈ text a, isAscii c = true) (cs : List Char) :
    firstMatch text candidates (latin (utf8 cs)) =
      (firstMatch text candidates cs).map fun (a, rest) => (a, latin (utf8 rest)) := by
  induction candidates with
  | nil => rfl
  | cons a candidates ih =>
    obtain ⟨ha, hcandidates⟩ := List.forall_mem_cons.mp htext
    have ih := ih hcandidates
    rw [firstMatch] at ih ⊢
    rw [firstMatch, List.findSome?_cons, List.findSome?_cons, isPrefixOf?_latin_utf8 ha]
    cases hprefix : (text a).isPrefixOf? cs with
    | none => exact ih
    | some rest => rfl

/-- No ASCII text starts with a byte beyond ASCII. -/
theorem firstMatch_eq_none_of_not_isAscii {α : Type} {text : α → List Char} {candidates : List α}
    (htext : ∀ a ∈ candidates, text a ≠ [] ∧ ∀ c ∈ text a, isAscii c = true) {d : Char} (hd : isAscii d = false)
    (ds : List Char) : firstMatch text candidates (d :: ds) = none := by
  rw [firstMatch, List.findSome?_eq_none_iff]
  intro a ha
  obtain ⟨hne, hascii⟩ := htext a ha
  obtain ⟨c, l, hc⟩ := List.exists_cons_of_ne_nil hne
  rw [hc, isPrefixOf?_eq_none_of_not_isAscii (hascii c (by simp [hc])) hd]
  rfl

end TemplateSyntax.Text
