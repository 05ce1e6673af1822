import RouteContract.Json.Basic
import RouteContract.Number.Layout

/-! # Schemas

The closed description of the values of a resolved type. Named definitions are mentioned by
reference. -/

set_option autoImplicit false

namespace RouteContract

open Number (Binary64)

inductive Primitive where
  | string | number | integer | boolean | any | void | date | datetime | buffer | object | null
deriving DecidableEq, Repr

namespace Primitive

def text : Primitive → String
  | string => "string"
  | number => "number"
  | integer => "integer"
  | boolean => "boolean"
  | any => "any"
  | void => "void"
  | date => "date"
  | datetime => "datetime"
  | buffer => "buffer"
  | object => "object"
  | null => "null"

def all : List Primitive :=
  [string, number, integer, boolean, any, void, date, datetime, buffer, object, null]

def ofText? (s : String) : Option Primitive := all.find? (·.text = s)

end Primitive

inductive EnumValue where
  | string (s : String)
  | number (x : Binary64)
deriving DecidableEq

namespace EnumValue

def same : EnumValue → EnumValue → Bool
  | string a, string b => a = b
  | number a, number b => a.same b
  | _, _ => false

def sameKind : EnumValue → EnumValue → Bool
  | string _, string _ => true
  | number _, number _ => true
  | _, _ => false

def text : EnumValue → String
  | string s => "'" ++ s ++ "'"
  | number x => x.positionalText

end EnumValue

structure PropertySchema (σ : Type) where
  schema : σ
  required : Bool
  default : Option Json
  description : Option String

inductive Additional (σ : Type) where
  /-- Nothing is declared; the request's policy decides. -/
  | implicit
  | any
  | schema (s : σ)

structure ObjectSchema (σ : Type) where
  properties : List (String × PropertySchema σ)
  additional : Additional σ

inductive Schema where
  | primitive (kind : Primitive)
  | array (element : Schema)
  | enum (values : List EnumValue)
  | object (o : ObjectSchema Schema)
  | union (members : List Schema)
  | intersection (members : List Schema)
  | reference (name : String)

instance : Inhabited Schema := ⟨.primitive .any⟩

def ObjectSchema.empty : ObjectSchema Schema := ⟨[], .implicit⟩

namespace Schema

def sameValues : List EnumValue → List EnumValue → Bool
  | [], [] => true
  | a :: as, b :: bs => a.same b && sameValues as bs
  | _, _ => false

def sameDefault : Option Json → Option Json → Bool
  | none, none => true
  | some a, some b => a.same b
  | _, _ => false

mutual

def same : Schema → Schema → Bool
  | primitive a, primitive b => a = b
  | array a, array b => same a b
  | enum as, enum bs => sameValues as bs
  | object ⟨ps, a⟩, object ⟨qs, b⟩ =>
    ps.length = qs.length && sameProperties ps qs && sameAdditional a b
  | union as, union bs => sameAll as bs
  | intersection as, intersection bs => sameAll as bs
  | reference a, reference b => a = b
  | _, _ => false

def sameAll : List Schema → List Schema → Bool
  | [], [] => true
  | a :: as, b :: bs => same a b && sameAll as bs
  | _, _ => false

def sameProperties : List (String × PropertySchema Schema) →
    List (String × PropertySchema Schema) → Bool
  | [], _ => true
  | (name, ⟨s, required, default, description⟩) :: ps, qs =>
    (match Entries.find? qs name with
      | some q => same s q.schema && required = q.required && sameDefault default q.default
          && description = q.description
      | none => false) && sameProperties ps qs

def sameAdditional : Additional Schema → Additional Schema → Bool
  | .implicit, .implicit => true
  | .any, .any => true
  | .schema a, .schema b => same a b
  | _, _ => false

end

mutual

def references : Schema → List String
  | primitive _ => []
  | array s => references s
  | enum _ => []
  | object ⟨ps, a⟩ => propertyReferences ps ++ additionalReferences a
  | union ss => allReferences ss
  | intersection ss => allReferences ss
  | reference name => [name]

def allReferences : List Schema → List String
  | [] => []
  | s :: ss => references s ++ allReferences ss

def propertyReferences : List (String × PropertySchema Schema) → List String
  | [] => []
  | (_, ⟨s, _, _, _⟩) :: ps => references s ++ propertyReferences ps

def additionalReferences : Additional Schema → List String
  | .implicit => []
  | .any => []
  | .schema s => references s

end

mutual

def text : Schema → String
  | primitive kind => kind.text
  | array s => text s ++ "[]"
  | enum values => " | ".intercalate (values.map EnumValue.text)
  | object _ => "object"
  | union ss => " | ".intercalate (texts ss)
  | intersection ss => " & ".intercalate (texts ss)
  | reference name => name

def texts : List Schema → List String
  | [] => []
  | s :: ss => text s :: texts ss

end

end Schema

namespace ObjectSchema

def requiredNames (o : ObjectSchema Schema) : List String :=
  (o.properties.filter (·.2.required)).map Prod.fst

/-- Adds the properties of a second object. A property of both is described by the second, and is
required when either requires it. -/
def merge (a b : ObjectSchema Schema) : ObjectSchema Schema where
  properties := b.properties.foldl (fun ps (name, p) =>
    let required := p.required || (Entries.find? ps name).any (·.required)
    Entries.insert ps name { p with required }) a.properties
  additional := match b.additional with
    | .implicit => a.additional
    | other => other

end ObjectSchema

end RouteContract
