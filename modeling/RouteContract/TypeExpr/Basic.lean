import RouteContract.Json.Basic

/-! # Type expressions

A type as written in a declaration or a signature: keywords, literals, arrays, unions,
intersections, inline objects, named references, type parameters, and constructs that are only known
by their kind. -/

set_option autoImplicit false

namespace RouteContract

open Number (Binary64)

inductive Keyword where
  | string | number | boolean | any | unknown | void | undefined | null | never | object
  | bigint | symbol
deriving DecidableEq, Repr

namespace Keyword

def text : Keyword → String
  | string => "string"
  | number => "number"
  | boolean => "boolean"
  | any => "any"
  | unknown => "unknown"
  | void => "void"
  | undefined => "undefined"
  | null => "null"
  | never => "never"
  | object => "object"
  | bigint => "bigint"
  | symbol => "symbol"

def all : List Keyword :=
  [string, number, boolean, any, unknown, void, undefined, null, never, object, bigint, symbol]

def ofText? (s : String) : Option Keyword := all.find? (·.text = s)

end Keyword

inductive Literal where
  | string (s : String)
  | number (x : Binary64)
  | boolean (b : Bool)
deriving DecidableEq

def Literal.same : Literal → Literal → Bool
  | string a, string b => a = b
  | number a, number b => a.same b
  | boolean a, boolean b => a = b
  | _, _ => false

structure Initializer where
  text : String
  value? : Option Json

def Initializer.same (a b : Initializer) : Bool :=
  a.text = b.text && match a.value?, b.value? with
    | some v, some w => v.same w
    | none, none => true
    | _, _ => false

inductive Format where
  | integer | float | date | datetime
deriving DecidableEq, Repr

def Format.text : Format → String
  | integer => "integer"
  | float => "float"
  | date => "date"
  | datetime => "datetime"

def Format.ofTag? : String → Option Format
  | "isInt" | "isLong" => some .integer
  | "isFloat" | "isDouble" => some .float
  | "isDate" => some .date
  | "isDateTime" => some .datetime
  | _ => none

structure Property (τ : Type) where
  name : String
  type : τ
  optional : Bool
  default : Option Initializer
  description : Option String
  format : Option Format

structure IndexSignature (τ : Type) where
  keyName : String
  key : τ
  value : τ

structure Shape (τ : Type) where
  properties : List (Property τ)
  index : List (IndexSignature τ)

/-- A named type with type arguments. A reference without a module is still to be looked up. -/
structure TypeRef (τ : Type) where
  name : String
  module : Option String
  args : List τ

inductive TypeExpr where
  | keyword (k : Keyword)
  | literal (l : Literal)
  | array (element : TypeExpr)
  | union (members : List TypeExpr)
  | intersection (members : List TypeExpr)
  | object (shape : Shape TypeExpr)
  | ref (r : TypeRef TypeExpr)
  | param (name : String)
  | unsupported (construct : String)

instance : Inhabited TypeExpr := ⟨.keyword .any⟩

namespace TypeExpr

def named (name : String) : TypeExpr := .ref ⟨name, none, []⟩

mutual

def same : TypeExpr → TypeExpr → Bool
  | keyword a, keyword b => a = b
  | literal a, literal b => a.same b
  | array a, array b => same a b
  | union as, union bs => sameAll as bs
  | intersection as, intersection bs => sameAll as bs
  | object ⟨ps, is⟩, object ⟨qs, js⟩ => sameProperties ps qs && sameIndex is js
  | ref ⟨n, m, as⟩, ref ⟨n', m', bs⟩ => n = n' && m = m' && sameAll as bs
  | param a, param b => a = b
  | unsupported a, unsupported b => a = b
  | _, _ => false

def sameAll : List TypeExpr → List TypeExpr → Bool
  | [], [] => true
  | a :: as, b :: bs => same a b && sameAll as bs
  | _, _ => false

def sameProperties : List (Property TypeExpr) → List (Property TypeExpr) → Bool
  | [], [] => true
  | ⟨n, t, o, d, s, f⟩ :: ps, q :: qs =>
    n = q.name && same t q.type && o = q.optional && s = q.description && f = q.format
      && (match d, q.default with
        | some a, some b => a.same b
        | none, none => true
        | _, _ => false)
      && sameProperties ps qs
  | _, _ => false

def sameIndex : List (IndexSignature TypeExpr) → List (IndexSignature TypeExpr) → Bool
  | [], [] => true
  | ⟨n, k, v⟩ :: is, j :: js => n = j.keyName && same k j.key && same v j.value && sameIndex is js
  | _, _ => false

end

end TypeExpr

structure DeclId where
  module : String
  name : String
deriving DecidableEq, Repr

def DeclId.text (id : DeclId) : String :=
  if id.module.isEmpty then id.name else id.module ++ "::" ++ id.name

structure Instance where
  id : DeclId
  args : List TypeExpr

def Instance.same (a b : Instance) : Bool := a.id = b.id && TypeExpr.sameAll a.args b.args

end RouteContract
