/-!
# Rounding to binary64

A nonnegative double is `mantissa * 2 ^ exponent`, or infinite. `Binary64.ofDecimal` rounds an exact decimal to the
nearest one, a tie going to the even mantissa; all arithmetic is on natural numbers.
-/

namespace TemplateSyntax.Decimal

/-- The quotient `n / d` to the nearest integer, a tie going to the even one. -/
def roundHalfEven (n d : Nat) : Nat :=
  let r := n % d
  if 2 * r < d ∨ (2 * r = d ∧ n / d % 2 = 0) then n / d else n / d + 1

/-- The rounded quotient is off by half a unit at most. -/
theorem roundHalfEven_near (n : Nat) {d : Nat} (h : 0 < d) :
    2 * (roundHalfEven n d * d) ≤ 2 * n + d ∧ 2 * n ≤ 2 * (roundHalfEven n d * d) + d := by
  have hn := Nat.div_add_mod n d
  rw [Nat.mul_comm] at hn
  have hr := Nat.mod_lt n h
  simp only [roundHalfEven]
  split
  · omega
  · rw [Nat.succ_mul (n / d)]; omega

/-- A nonnegative double. -/
inductive Binary64 where
  | finite (mantissa : Nat) (exponent : Int)
  | infinite
deriving DecidableEq, Inhabited

namespace Binary64

def zero : Binary64 := .finite 0 (-1074)

/-- The largest `k` with `2 ^ k ≤ n / d`. -/
def binaryExponent (n d : Nat) : Int :=
  let k : Int := n.log2 - d.log2
  if d * Nat.pow 2 k.toNat ≤ n * Nat.pow 2 (-k).toNat then k else k - 1

/-- The double nearest to `n / d`: the mantissa has 53 bits, fewer only at the least exponent. -/
def ofRatio (n d : Nat) : Binary64 :=
  let e := max (binaryExponent n d - 52) (-1074)
  let m := roundHalfEven (n * Nat.pow 2 (-e).toNat) (d * Nat.pow 2 e.toNat)
  let (m, e) := if m = Nat.pow 2 53 then (Nat.pow 2 52, e + 1) else (m, e)
  if e > 971 then .infinite else .finite m e

/-- The double nearest to `digits * 10 ^ exponent`. What is at least `10 ^ 309` or below `10 ^ (-325)` is settled by
its size, so a huge exponent is never expanded. -/
def ofDecimal (digits : Nat) (exponent : Int) : Binary64 :=
  if digits = 0 then zero
  else
    let leading : Int := (Nat.toDigits 10 digits).length - 1 + exponent
    if leading > 308 then .infinite
    else if leading < -325 then zero
    else ofRatio (digits * Nat.pow 10 exponent.toNat) (Nat.pow 10 (-exponent).toNat)

end Binary64

end TemplateSyntax.Decimal
