/-! # Finite doubles

A double is a sign, a mantissa and a power of two in normal form. Every operation is the exact
rational operation followed by one rounding to the nearest double, a tie going to the even mantissa;
a result beyond the largest double is `none`. -/

set_option autoImplicit false

namespace RouteContract.Number

/-- The mantissas and exponents of finite doubles: 53 bits, full unless the exponent is lowest. -/
def Normal (mantissa : Nat) (exponent : Int) : Prop :=
  mantissa < Nat.pow 2 53 ∧ -1074 ≤ exponent ∧ exponent ≤ 971
    ∧ (Nat.pow 2 52 ≤ mantissa ∨ exponent = -1074)

instance (m : Nat) (e : Int) : Decidable (Normal m e) := by
  unfold Normal; infer_instance

structure Binary64 where
  negative : Bool
  mantissa : Nat
  exponent : Int
  normal : Normal mantissa exponent
deriving DecidableEq

namespace Binary64

def zero (negative : Bool) : Binary64 := ⟨negative, 0, -1074, by decide⟩

instance : Inhabited Binary64 := ⟨zero false⟩

def roundDiv (num den : Nat) : Nat :=
  let q := num / den
  let r := num % den
  if den < 2 * r ∨ (2 * r = den ∧ q % 2 = 1) then q + 1 else q

def scale (num den : Nat) (e : Int) : Nat × Nat :=
  (num * Nat.pow 2 (-e).toNat, den * Nat.pow 2 e.toNat)

def ofParts? (negative : Bool) (mantissa : Nat) (exponent : Int) : Option Binary64 :=
  if h : Normal mantissa exponent then some ⟨negative, mantissa, exponent, h⟩ else none

def targetExponent (num den : Nat) : Int :=
  let e := max ((num.log2 : Int) - (den.log2 : Int) - 53) (-1074)
  let (n, d) := scale num den e
  if n / d < Nat.pow 2 53 then e else e + 1

def ofRatio? (negative : Bool) (num den : Nat) : Option Binary64 :=
  if num = 0 then some (zero negative)
  else
    let e := targetExponent num den
    let (n, d) := scale num den e
    let m := roundDiv n d
    if m < Nat.pow 2 53 then ofParts? negative m e
    else ofParts? negative (Nat.pow 2 52) (e + 1)

def ofInt? (n : Int) : Option Binary64 := ofRatio? (n < 0) n.natAbs 1

def ratio (x : Binary64) : Nat × Nat :=
  (x.mantissa * Nat.pow 2 x.exponent.toNat, Nat.pow 2 (-x.exponent).toNat)

def signed (negative : Bool) (n : Nat) : Int := if negative then -n else n

def isZero (x : Binary64) : Bool := x.mantissa = 0

def neg (x : Binary64) : Binary64 := { x with negative := !x.negative }

def same (x y : Binary64) : Bool := x = y || (x.isZero && y.isZero)

def toInt? (x : Binary64) : Option Int :=
  let (n, d) := x.ratio
  if n % d = 0 then some (signed x.negative (n / d)) else none

def add? (x y : Binary64) : Option Binary64 :=
  let (n, d) := x.ratio
  let (n', d') := y.ratio
  let s := signed x.negative (n * d') + signed y.negative (n' * d)
  if s = 0 then some (zero (x.negative && y.negative)) else ofRatio? (s < 0) s.natAbs (d * d')

def mul? (x y : Binary64) : Option Binary64 :=
  let (n, d) := x.ratio
  let (n', d') := y.ratio
  ofRatio? (x.negative != y.negative) (n * n') (d * d')

def div? (x y : Binary64) : Option Binary64 :=
  let (n, d) := x.ratio
  let (n', d') := y.ratio
  if n' = 0 then none else ofRatio? (x.negative != y.negative) (n * d') (d * n')

/-- The double nearest to `± digits * 10 ^ exponent`. Exponents far outside the range of doubles are
answered without computing the power. -/
def ofDecimal? (negative : Bool) (digits : Nat) (exponent : Int) : Option Binary64 :=
  if digits = 0 then some (zero negative)
  else
    let size : Int := (digits.log2 : Int) / 4
    if 400 < size + exponent then none
    else if 4 * (size + 1) + exponent < -400 then some (zero negative)
    else ofRatio? negative (digits * Nat.pow 10 exponent.toNat) (Nat.pow 10 (-exponent).toNat)

end Binary64

end RouteContract.Number
