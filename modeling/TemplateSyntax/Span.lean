/-!
# Spans

A span is a range of byte offsets in a template, from `start` up to but not including `stop`. Nothing forces
`start ≤ stop`; the spans produced from a source satisfy it.
-/

namespace TemplateSyntax

structure Span where
  start : Nat
  stop : Nat
deriving DecidableEq, Repr, Inhabited

namespace Span

/-- `inner` lies between the ends of `s`, its own two ends in either order. -/
def contains (s inner : Span) : Bool :=
  decide (s.start ≤ inner.start) && decide (inner.stop ≤ s.stop)

/-- The span with both ends moved by `n` bytes. -/
def shift (n : Nat) (s : Span) : Span :=
  ⟨s.start + n, s.stop + n⟩

/-- From the start of `s` to the end of `t`. -/
def upTo (s t : Span) : Span :=
  ⟨s.start, t.stop⟩

theorem contains_iff {s inner : Span} :
    s.contains inner = true ↔ s.start ≤ inner.start ∧ inner.stop ≤ s.stop := by
  simp [contains]

@[simp] theorem shift_zero (s : Span) : s.shift 0 = s := rfl

@[simp] theorem shift_shift (m n : Nat) (s : Span) : (s.shift m).shift n = s.shift (m + n) := by
  simp [shift, Nat.add_assoc]

@[simp] theorem shift_upTo (n : Nat) (s t : Span) : (s.upTo t).shift n = (s.shift n).upTo (t.shift n) := rfl

end Span

end TemplateSyntax
