import RouteContract.Entries
import RouteContract.Number.Binary64

/-! # JSON values

An object is a table in the order its keys were first written. An integer that fits 64 bits, signed
or unsigned, is kept as an integer; any other number is a double. -/

set_option autoImplicit false

namespace RouteContract

open Number (Binary64)

inductive Json where
  | null
  | bool (b : Bool)
  | integer (n : Int)
  | float (x : Binary64)
  | string (s : String)
  | array (items : List Json)
  | object (fields : List (String × Json))
deriving Inhabited

namespace Json

def fits (n : Int) : Bool := -(Nat.pow 2 63 : Int) ≤ n && n < (Nat.pow 2 64 : Int)

def toFloat? : Json → Option Binary64
  | integer n => Binary64.ofInt? n
  | float x => some x
  | _ => none

def ofFloat (x : Binary64) : Json :=
  match x.toInt? with
  | some n => if n.natAbs < Nat.pow 2 53 then integer n else float x
  | none => float x

def field? (key : String) : Json → Option Json
  | object fields => Entries.find? fields key
  | _ => none

def string? : Json → Option String
  | string s => some s
  | _ => none

def items : Json → List Json
  | array vs => vs
  | _ => []

def isNull : Json → Bool
  | null => true
  | _ => false

mutual

/-- Equality of values: the order of an object's keys does not count. -/
def same : Json → Json → Bool
  | null, null => true
  | bool a, bool b => a = b
  | integer a, integer b => a = b
  | float a, float b => a.same b
  | string a, string b => a = b
  | array as, array bs => sameItems as bs
  | object fs, object gs => fs.length = gs.length && sameFields fs gs
  | _, _ => false

def sameItems : List Json → List Json → Bool
  | [], [] => true
  | a :: as, b :: bs => same a b && sameItems as bs
  | _, _ => false

def sameFields : List (String × Json) → List (String × Json) → Bool
  | [], _ => true
  | (k, a) :: fs, gs =>
    (match Entries.find? gs k with
      | some b => same a b
      | none => false) && sameFields fs gs

end

end Json

end RouteContract
