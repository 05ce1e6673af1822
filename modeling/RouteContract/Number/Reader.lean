import RouteContract.Number.Binary64

/-! # Numbers in text

Readers of whole texts: a signed integer, a decimal number, an integer in base sixteen. They accept
no surrounding space and no digit separator. -/

set_option autoImplicit false

namespace RouteContract.Number

def digit? (c : Char) : Option Nat :=
  if c.isDigit then some (c.toNat - '0'.toNat) else none

def hexDigit? (c : Char) : Option Nat :=
  if c.isDigit then some (c.toNat - '0'.toNat)
  else if 'a' ≤ c ∧ c ≤ 'f' then some (c.toNat - 'a'.toNat + 10)
  else if 'A' ≤ c ∧ c ≤ 'F' then some (c.toNat - 'A'.toNat + 10)
  else none

def ofDigits (base : Nat) (ds : List Nat) : Nat := ds.foldl (fun n d => n * base + d) 0

def natural? (base : Nat) (digitOf : Char → Option Nat) (cs : List Char) : Option Nat :=
  if cs.isEmpty then none else (cs.mapM digitOf).map (ofDigits base)

def splitSign : List Char → Bool × List Char
  | '-' :: cs => (true, cs)
  | '+' :: cs => (false, cs)
  | cs => (false, cs)

def integer? (cs : List Char) : Option Int :=
  let (negative, ds) := splitSign cs
  (natural? 10 digit? ds).map fun n => if negative then -(n : Int) else n

def spanDigits (cs : List Char) : List Char × List Char :=
  (cs.takeWhile Char.isDigit, cs.dropWhile Char.isDigit)

def exponent? : List Char → Option Int
  | [] => some 0
  | c :: cs => if c = 'e' ∨ c = 'E' then integer? cs else none

def decimal? (cs : List Char) : Option Binary64 :=
  let (negative, cs) := splitSign cs
  let (whole, rest) := spanDigits cs
  let (fraction, rest) := match rest with
    | '.' :: rest => spanDigits rest
    | rest => ([], rest)
  if whole.isEmpty && fraction.isEmpty then none
  else
    (exponent? rest).bind fun e =>
      let ds := (whole ++ fraction).filterMap digit?
      Binary64.ofDecimal? negative (ofDigits 10 ds) (e - fraction.length)

end RouteContract.Number
