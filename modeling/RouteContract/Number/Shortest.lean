import RouteContract.Number.Binary64

/-! # Fewest digits

The decimal numbers that round to a double form an interval around it, ends included exactly when
the mantissa is even. The written digits are the fewest that lie in the interval, and of those the
nearest to the double. -/

set_option autoImplicit false

namespace RouteContract.Number

structure Decimal where
  digits : Nat
  exponent : Int
deriving DecidableEq, Repr

namespace Decimal

def strip : Nat → Decimal → Decimal
  | 0, d => d
  | n + 1, d =>
    if d.digits ≠ 0 ∧ d.digits % 10 = 0 then strip n ⟨d.digits / 10, d.exponent + 1⟩ else d

def ratio (d : Decimal) : Nat × Nat :=
  (d.digits * Nat.pow 10 d.exponent.toNat, Nat.pow 10 (-d.exponent).toNat)

def le (a b : Nat × Nat) : Bool := a.1 * b.2 ≤ b.1 * a.2

end Decimal

namespace Binary64

def interval (x : Binary64) : (Nat × Nat) × (Nat × Nat) :=
  let narrow := x.mantissa = Nat.pow 2 52 ∧ -1074 < x.exponent
  let unit (k : Nat) : Nat × Nat :=
    (k * Nat.pow 2 (x.exponent - 2).toNat, Nat.pow 2 (2 - x.exponent).toNat)
  (unit (4 * x.mantissa - if narrow then 1 else 2), unit (4 * x.mantissa + 2))

def readsBack (x : Binary64) (d : Decimal) : Bool :=
  let (lo, hi) := x.interval
  let r := d.ratio
  if x.mantissa % 2 = 0 then Decimal.le lo r && Decimal.le r hi
  else !Decimal.le r lo && !Decimal.le hi r

def tensBelow (den : Nat) : Nat → Nat → Nat
  | 0, _ => 0
  | n + 1, num => if den ≤ num then 0 else tensBelow den n (num * 10) + 1

def scale10 (x : Binary64) : Int :=
  let (n, d) := x.ratio
  if d ≤ n then ((Nat.toDigits 10 (n / d)).length : Int) else 1 - (tensBelow d 400 n : Int)

def onGrid (x : Binary64) (g : Int) : Option Decimal :=
  let (n, d) := x.ratio
  let (n', d') : Nat × Nat := (n * Nat.pow 10 (-g).toNat, d * Nat.pow 10 g.toNat)
  let c := n' / d'
  let below := x.readsBack ⟨c, g⟩ && c ≠ 0
  let above := x.readsBack ⟨c + 1, g⟩
  if below && above then
    if roundDiv n' d' = c then some ⟨c, g⟩ else some ⟨c + 1, g⟩
  else if below then some ⟨c, g⟩
  else if above then some ⟨c + 1, g⟩
  else none

def firstGrid (x : Binary64) : Nat → Int → Option Decimal
  | 0, _ => none
  | n + 1, g => (x.onGrid g).or (firstGrid x n (g - 1))

def exact (x : Binary64) : Decimal :=
  if 0 ≤ x.exponent then ⟨x.mantissa * Nat.pow 2 x.exponent.toNat, 0⟩
  else ⟨x.mantissa * Nat.pow 5 (-x.exponent).toNat, x.exponent⟩

def shortest (x : Binary64) : Decimal :=
  if x.isZero then ⟨0, 0⟩
  else ((x.firstGrid 17 (x.scale10 - 1)).getD x.exact).strip 800

end Binary64

end RouteContract.Number
