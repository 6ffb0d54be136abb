import TemplateSyntax.Proofs.Text.Utf8
import TemplateSyntax.Report.Position

/-!
# Boundaries of characters

Offsets count bytes, and only those between two characters, in front of all of them or behind all of them are of use to
a reader: just they have a line and a column (`Position.at?_isSome_iff`), and just between two of them there is a slice
(`slice?_isSome_iff`).
-/

namespace TemplateSyntax

namespace Text

/-- The byte offset has some of the characters in front of it and the others behind it. -/
def IsBoundary (cs : List Char) (n : Nat) : Prop :=
  ∃ before after, cs = before ++ after ∧ n = byteLength before

variable {cs mid : List Char} {s : Span} {n : Nat}

theorem isBoundary_iff : IsBoundary cs n ↔ (splitBytes? n cs).isSome := by
  rw [Option.isSome_iff_exists]
  constructor
  · rintro ⟨before, after, h⟩
    exact ⟨(before, after), splitBytes?_eq_some_iff.mpr h⟩
  · rintro ⟨⟨before, after⟩, h⟩
    exact ⟨before, after, splitBytes?_eq_some_iff.mp h⟩

theorem IsBoundary.le (h : IsBoundary cs n) : n ≤ byteLength cs := by
  obtain ⟨before, after, rfl, rfl⟩ := h
  rw [byteLength_append]
  omega

/-- The span runs from one boundary of the text to another. -/
structure Marks (cs : List Char) (s : Span) : Prop where
  le : s.start ≤ s.stop
  within : s.stop ≤ byteLength cs
  start : IsBoundary cs s.start
  stop : IsBoundary cs s.stop

theorem IsBoundary.marks (hstart : IsBoundary cs s.start) (hstop : IsBoundary cs s.stop) (hle : s.start ≤ s.stop) :
    Marks cs s :=
  ⟨hle, hstop.le, hstart, hstop⟩

theorem slice?_isSome_iff : (slice? cs s).isSome ↔ Marks cs s := by
  constructor
  · intro h
    obtain ⟨mid, hmid⟩ := Option.isSome_iff_exists.mp h
    obtain ⟨before, after, rfl, rfl⟩ := slice?_eq_some_iff.mp hmid
    have hstart : IsBoundary (before ++ mid ++ after) (byteLength before) :=
      ⟨before, mid ++ after, List.append_assoc .., rfl⟩
    have hstop : IsBoundary (before ++ mid ++ after) (byteLength before + byteLength mid) :=
      ⟨before ++ mid, after, rfl, (byteLength_append ..).symm⟩
    exact hstart.marks hstop (Nat.le_add_right ..)
  · obtain ⟨start, stop⟩ := s
    rintro ⟨hle, -, ⟨front, behind, rfl, hstart⟩, ⟨front', behind', heq, hstop⟩⟩
    dsimp only at hle hstart hstop
    rw [Option.isSome_iff_exists]
    rcases List.append_eq_append_iff.mp heq with ⟨mid, rfl, rfl⟩ | ⟨mid, rfl, rfl⟩
    · refine ⟨mid, slice?_eq_some_iff.mpr ⟨front, behind', (List.append_assoc ..).symm, ?_⟩⟩
      rw [hstart, hstop, byteLength_append]
    · -- nothing can lie between the two
      rw [byteLength_append] at hstart
      obtain rfl : mid = [] := byteLength_eq_zero.mp (by omega)
      refine ⟨[], slice?_eq_some_iff.mpr ⟨front', behind, by simp, ?_⟩⟩
      rw [hstart, hstop, byteLength_nil, Nat.add_zero]

theorem marks_of_slice? (h : slice? cs s = some mid) : Marks cs s :=
  slice?_isSome_iff.mp (Option.isSome_of_mem h)

/-- A boundary of what stands at a span is one of the whole. -/
theorem IsBoundary.of_slice? (h : IsBoundary mid n) (hmid : slice? cs s = some mid) :
    IsBoundary cs (s.start + n) ∧ s.start + n ≤ s.stop := by
  have hle := h.le
  obtain ⟨front, behind, rfl, rfl⟩ := h
  obtain ⟨before, after, rfl, rfl⟩ := slice?_eq_some_iff.mp hmid
  refine ⟨⟨before ++ front, behind ++ after, by simp, (byteLength_append ..).symm⟩, ?_⟩
  dsimp only
  omega

end Text

namespace Position

open Text (IsBoundary byteLength isBoundary_iff splitBytes?)

theorem advance?_isSome_iff (p : Position) (cs : List Char) (n : Nat) :
    (p.advance? cs n).isSome ↔ (splitBytes? n cs).isSome := by
  induction cs generalizing p n with
  | nil => cases n <;> exact Iff.rfl
  | cons c cs ih =>
    cases n with
    | zero => exact Iff.rfl
    | succ n =>
      rw [advance?, splitBytes?]
      split
      · rw [ih, Option.isSome_map]
      · exact Iff.rfl

/-- Just the boundaries have a line and a column. -/
theorem at?_isSome_iff {source : String} {n : Nat} : (at? source n).isSome ↔ IsBoundary source.toList n := by
  rw [at?, advance?_isSome_iff, isBoundary_iff]

end Position

end TemplateSyntax
