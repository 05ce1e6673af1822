import RouteContract.Calendar.Timestamp
import RouteContract.Json.Basic

/-! # Typed values

What a validated argument is. Every typed value has a JSON form, in which dates are texts. -/

set_option autoImplicit false

namespace RouteContract

open Number (Binary64)
open Calendar (Date Timestamp)

inductive Typed where
  | string (s : String)
  | integer (n : Int)
  | number (x : Binary64)
  | boolean (b : Bool)
  | date (d : Date)
  | datetime (t : Timestamp)
  | bytes (bs : List UInt8)
  | array (items : List Typed)
  | object (fields : List (String × Typed))
  | null
  /-- A value passed on without a schema. -/
  | any (v : Json)

namespace Typed

mutual

def toJson : Typed → Json
  | string s => .string s
  | integer n => .integer n
  | number x => .float x
  | boolean b => .bool b
  | date d => .string d.text
  | datetime t => .string t.text
  | bytes bs => .array (bs.map fun b => .integer b.toNat)
  | array items => .array (itemsToJson items)
  | object fields => .object (fieldsToJson fields)
  | null => .null
  | any v => v

def itemsToJson : List Typed → List Json
  | [] => []
  | t :: ts => toJson t :: itemsToJson ts

def fieldsToJson : List (String × Typed) → List (String × Json)
  | [] => []
  | (k, t) :: fs => (k, toJson t) :: fieldsToJson fs

end

def string? : Typed → Option String
  | string s => some s
  | _ => none

def integer? : Typed → Option Int
  | integer n => some n
  | _ => none

def number? : Typed → Option Binary64
  | number x => some x
  | integer n => Binary64.ofInt? n
  | _ => none

def boolean? : Typed → Option Bool
  | boolean b => some b
  | _ => none

def array? : Typed → Option (List Typed)
  | array items => some items
  | _ => none

def field? (key : String) : Typed → Option Typed
  | object fields => Entries.find? fields key
  | _ => none

end Typed

end RouteContract
