import RouteContract.Json.Basic
import RouteContract.Number.Layout

/-! # JSON text

The compact form has no blanks. The indented form puts each item and field on a line of its own,
two spaces deeper than its container, and writes an empty container without a break. -/

set_option autoImplicit false

namespace RouteContract.Json

open Number (Binary64)

def hexDigit (n : Nat) : Char := (Nat.toDigits 16 n).headD '0'

def escape (c : Char) : List Char :=
  match c with
  | '"' => ['\\', '"']
  | '\\' => ['\\', '\\']
  | '\n' => ['\\', 'n']
  | '\r' => ['\\', 'r']
  | '\t' => ['\\', 't']
  | c =>
    if c.toNat = 8 then ['\\', 'b']
    else if c.toNat = 12 then ['\\', 'f']
    else if c.toNat < 32 then
      ['\\', 'u', '0', '0', hexDigit (c.toNat / 16), hexDigit (c.toNat % 16)]
    else [c]

def quote (s : String) : String := String.ofList ('"' :: (s.toList.flatMap escape ++ ['"']))

def scalar : Json → String
  | null => "null"
  | bool b => if b then "true" else "false"
  | integer n => toString n
  | float x => x.markedText
  | string s => quote s
  | _ => ""

def braced (body : String) : String := "\x7b" ++ body ++ "\x7d"

mutual

def compact : Json → String
  | array items => "[" ++ ",".intercalate (compactItems items) ++ "]"
  | object fields => braced (",".intercalate (compactFields fields))
  | v => scalar v

def compactItems : List Json → List String
  | [] => []
  | v :: vs => compact v :: compactItems vs

def compactFields : List (String × Json) → List String
  | [] => []
  | (k, v) :: fs => (quote k ++ ":" ++ compact v) :: compactFields fs

end

def breakAt (level : Nat) : String := String.ofList ('\n' :: List.replicate (2 * level) ' ')

mutual

def indented (level : Nat) : Json → String
  | array [] => "[]"
  | array items =>
    "[" ++ breakAt (level + 1) ++ ("," ++ breakAt (level + 1)).intercalate
      (indentedItems (level + 1) items) ++ breakAt level ++ "]"
  | object [] => braced ""
  | object fields =>
    braced (breakAt (level + 1) ++ ("," ++ breakAt (level + 1)).intercalate
      (indentedFields (level + 1) fields) ++ breakAt level)
  | v => scalar v

def indentedItems (level : Nat) : List Json → List String
  | [] => []
  | v :: vs => indented level v :: indentedItems level vs

def indentedFields (level : Nat) : List (String × Json) → List String
  | [] => []
  | (k, v) :: fs => (quote k ++ ": " ++ indented level v) :: indentedFields level fs

end

end RouteContract.Json
