import RouteContract.Entries
import RouteContract.Json.Basic
import RouteContract.Number.Reader
import RouteContract.Syntax.Tree
import RouteContract.TypeExpr.Basic

/-! # Constants

Strings and the expressions that are JSON values. An escape other than those of the line feed, the
carriage return, the tab and the zero character stands for its own text without backslashes. -/

set_option autoImplicit false

namespace RouteContract.Syntax

open Number (Binary64)

namespace StringPiece

def unescape (sequence : String) : String :=
  match sequence with
  | "\\n" => "\n"
  | "\\t" => "\t"
  | "\\r" => "\r"
  | "\\0" => String.ofList [Char.ofNat 0]
  | other => String.ofList (other.toList.dropWhile (· = '\\'))

def text : StringPiece → String
  | plain s => s
  | escape s => unescape s

def decode (pieces : List StringPiece) : String := String.join (pieces.map text)

end StringPiece

def Key.text : Key → String
  | quoted pieces => StringPiece.decode pieces
  | plain s => s

def numberOf? (text : String) : Option Binary64 :=
  match text.toList.filter (· ≠ '_') with
  | '0' :: 'x' :: ds => hexadecimal? ds
  | '0' :: 'X' :: ds => hexadecimal? ds
  | cs => Number.decimal? cs
where
  hexadecimal? (ds : List Char) : Option Binary64 :=
    (Number.natural? 16 Number.hexDigit? ds).bind fun n =>
      if n < Nat.pow 2 63 then Binary64.ofInt? n else none

namespace Expr

def signed? (operator : String) (x : Binary64) : Option Json :=
  match operator with
  | "-" => some (Json.ofFloat x.neg)
  | "+" => some (Json.ofFloat x)
  | _ => none

mutual

def constant? : Expr → Option Json
  | string pieces => some (.string (StringPiece.decode pieces))
  | template pieces => some (.string (StringPiece.decode pieces))
  | number text => (numberOf? text).map Json.ofFloat
  | boolean b => some (.bool b)
  | null => some .null
  | unary operator arg => ((constant? arg).bind Json.toFloat?).bind (signed? operator)
  | array items => (constants? items).map .array
  | object pairs => (fields? pairs).map fun fs => .object (Entries.ofList fs)
  | wrapped inner => constant? inner
  | name _ => none
  | member _ => none
  | other _ => none

def constants? : List Expr → Option (List Json)
  | [] => some []
  | e :: es => (constant? e).bind fun v => (constants? es).map (v :: ·)

def fields? : List (Key × Expr) → Option (List (String × Json))
  | [] => some []
  | (k, e) :: ps => (constant? e).bind fun v => (fields? ps).map ((k.text, v) :: ·)

end

end Expr

def ArgumentSyntax.initializer (a : ArgumentSyntax) : Initializer := ⟨a.text, a.value.constant?⟩

end RouteContract.Syntax
