import RouteContract.Schema.Basic
import RouteContract.TypeExpr.Basic

/-! # Unions and formats

A union is flat and without repetition. One member stands for itself, and enums of one kind of value
are one enum. -/

set_option autoImplicit false

namespace RouteContract

namespace EnumValue

def addTo? (values : List EnumValue) (v : EnumValue) : Option (List EnumValue) :=
  match values with
  | [] => some [v]
  | first :: _ =>
    if !first.sameKind v then none
    else if values.any (·.same v) then some values
    else some (values ++ [v])

def addAllTo? (values : List EnumValue) : List EnumValue → Option (List EnumValue)
  | [] => some values
  | v :: vs => (addTo? values v).bind (addAllTo? · vs)

end EnumValue

namespace Schema

def addMember (flat : List Schema) (s : Schema) : List Schema :=
  if flat.any (·.same s) then flat else flat ++ [s]

def flatten (members : List Schema) : List Schema :=
  members.foldl (fun flat s => match s with
    | union nested => nested.foldl addMember flat
    | other => addMember flat other) []

def collapse? (values : List EnumValue) : List Schema → Option (List EnumValue)
  | [] => some values
  | enum vs :: rest => (EnumValue.addAllTo? values vs).bind (collapse? · rest)
  | _ :: _ => none

def unionOf (members : List Schema) : Schema :=
  match flatten members with
  | [s] => s
  | flat => match collapse? [] flat with
    | some values => enum values
    | none => union flat

def refine (kind : Primitive) : Format → Primitive
  | .integer => match kind with
    | .number | .integer => .integer
    | other => other
  | .float => match kind with
    | .number | .integer => .number
    | other => other
  | .date => match kind with
    | .string | .datetime | .date => .date
    | other => other
  | .datetime => match kind with
    | .string | .datetime | .date => .datetime
    | other => other

mutual

def applyFormat (f : Format) : Schema → Schema
  | primitive kind => primitive (refine kind f)
  | array s => array (applyFormat f s)
  | union ss => union (applyFormatAll f ss)
  | enum values => enum values
  | object o => object o
  | intersection ss => intersection ss
  | reference name => reference name

def applyFormatAll (f : Format) : List Schema → List Schema
  | [] => []
  | s :: ss => applyFormat f s :: applyFormatAll f ss

end

end Schema

end RouteContract
