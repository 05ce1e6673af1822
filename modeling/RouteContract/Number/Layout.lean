import RouteContract.Number.Shortest

/-! # Layouts of a double

Two texts of one double, with the same digits. The positional text never has an exponent. The
marked text always shows that the number is no integer literal: it has a point or an exponent. -/

set_option autoImplicit false

namespace RouteContract.Number

def zeros (n : Nat) : List Char := List.replicate n '0'

def sign (negative : Bool) : List Char := if negative then ['-'] else []

namespace Decimal

def positional (d : Decimal) (whole : List Char) : List Char :=
  let ds := Nat.toDigits 10 d.digits
  if 0 ≤ d.exponent then ds ++ zeros d.exponent.toNat ++ whole
  else
    let point : Int := ds.length + d.exponent
    if 0 < point then ds.take point.toNat ++ '.' :: ds.drop point.toNat
    else '0' :: '.' :: (zeros (-point).toNat ++ ds)

def scientific (d : Decimal) : List Char :=
  let ds := Nat.toDigits 10 d.digits
  let e : Int := ds.length + d.exponent - 1
  let tail := if ds.length ≤ 1 then [] else '.' :: ds.drop 1
  ds.take 1 ++ tail ++ 'e' :: (if e < 0 then '-' else '+') :: Nat.toDigits 10 e.natAbs

def magnitude (d : Decimal) : Int := (Nat.toDigits 10 d.digits).length + d.exponent - 1

end Decimal

namespace Binary64

def positionalText (x : Binary64) : String :=
  String.ofList (sign x.negative ++ x.shortest.positional [])

/-- Positional between `10 ^ -5` and `10 ^ 16`, otherwise with an exponent; an integer ends in
`.0`. -/
def markedText (x : Binary64) : String :=
  let d := x.shortest
  let text := if x.isZero ∨ (-5 ≤ d.magnitude ∧ d.magnitude ≤ 15) then d.positional ['.', '0']
    else d.scientific
  String.ofList (sign x.negative ++ text)

end Binary64

end RouteContract.Number
