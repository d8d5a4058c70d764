import FerrumKv.Lib.Decimal

/-!
# Binary floating point numbers in decimal

The fields of a `binary64` bit pattern, and the number rendered with a fixed count of decimals,
rounded half to even (`fixed`). A finite number is rendered as a sign, digits, a point and digits.
-/

namespace Binary64

def negative (x : UInt64) : Bool := decide (2 ^ 63 ≤ x.toNat)

def exponent (x : UInt64) : ℕ := x.toNat / 2 ^ 52 % 2 ^ 11

def fraction (x : UInt64) : ℕ := x.toNat % 2 ^ 52

def isFinite (x : UInt64) : Bool := decide (exponent x ≠ 2047)

def significand (x : UInt64) : ℕ := if exponent x = 0 then fraction x else 2 ^ 52 + fraction x

/-- The quotient rounded to the nearest number, a half to the even one. -/
def divRound (n d : ℕ) : ℕ :=
  if 2 * (n % d) < d ∨ 2 * (n % d) = d ∧ n / d % 2 = 0 then n / d else n / d + 1

/-- The magnitude of a finite number in units of the last of `digits` decimals. -/
def scaled (digits : ℕ) (x : UInt64) : ℕ :=
  let e := max (exponent x) 1
  divRound (significand x * 10 ^ digits * 2 ^ (e - 1075)) (2 ^ (1075 - e))

/-- A number with leading zeros. -/
def pad (digits n : ℕ) : List UInt8 :=
  List.replicate (digits - (Decimal.ofNat n).length) 48 ++ Decimal.ofNat n

def fixed (digits : ℕ) (x : UInt64) : List UInt8 :=
  if isFinite x then
    (if negative x then [45] else []) ++ Decimal.ofNat (scaled digits x / 10 ^ digits)
      ++ 46 :: pad digits (scaled digits x % 10 ^ digits)
  else if fraction x ≠ 0 then [78, 97, 78]
  else (if negative x then [45] else []) ++ [105, 110, 102]

theorem isDigit_of_mem_pad {digits n : ℕ} {b : UInt8} (h : b ∈ pad digits n) :
    Decimal.isDigit b = true := by
  rcases List.mem_append.1 h with h | h
  · rw [(List.mem_replicate.1 h).2]
    decide
  · exact Decimal.isDigit_of_mem_ofNat h

end Binary64
