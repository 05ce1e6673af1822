import RouteContract.Coercion.Budget

/-! # Coercion of texts

The values of a path capture, a query key or a header. An array takes every value, each split where
a delimiter is given; anything else takes the first. Where a schema has structure, the text is read
as JSON. -/

set_option autoImplicit false

namespace RouteContract.Coercion

open Coerced (refuse orRefuse)

def split (delimiter : Option Char) (value : String) : List String :=
  match delimiter with
  | some d =>
    (((Text.pieces d value.toList).map Text.trim).filter (!·.isEmpty)).map String.ofList
  | none => [value]

def rawTexts : List String → Json
  | [s] => .string s
  | ss => .array (ss.map .string)

def describe : Schema → String
  | .array _ => "array"
  | .primitive kind => kind.text
  | _ => "object"

section

variable (ds : Definitions) (extras : Extras)

def oneTextWithin : Nat → Schema → String → String → Option (Coerced Typed)
  | 0, _, _, _ => none
  | n + 1, s, text, path =>
    through ds s path fun s => match s with
      | .primitive kind => some (textPrimitive kind text path)
      | .enum values => some (orRefuse (listedText? values text) path (.notListed values) (.string text))
      | .union members =>
        firstMatch (oneTextWithin n · text path) members path (.string text) members
      | structured =>
        match Json.parse? text with
        | some v => json ds extras structured v path
        | none => some (refuse path (.invalid (describe structured)) (.string text))

def texts (element : Schema) (path : String) (steps i : Nat) :
    List String → Option (List (Coerced Typed))
  | [] => some []
  | s :: ss => do
    let c ← oneTextWithin ds extras steps element s (index path i)
    let cs ← texts element path steps (i + 1) ss
    return c :: cs

/-- Coerces the values of a key within a number of nested steps. Without a value there is no result
and nothing to report. -/
def textWithin (delimiter : Option Char) (steps : Nat) :
    Nat → Schema → List String → String → Option (Coerced Typed)
  | 0, _, _, _ => none
  | n + 1, s, values, path =>
    through ds s path fun s => match s with
      | .array element => do
        let cs ← texts ds extras element path steps 0 (values.flatMap (split delimiter))
        return (Coerced.sequence cs).map .array
      | .union members =>
        firstMatch (textWithin delimiter steps n · values path) members path (rawTexts values) members
      | other =>
        match values with
        | [] => some ⟨none, []⟩
        | first :: _ => oneTextWithin ds extras steps other first path

def text (delimiter : Option Char) (s : Schema) (values : List String) (path : String) :
    Option (Coerced Typed) :=
  let steps := schemaNodes ds s + 1
  textWithin ds extras delimiter steps steps s values path

end

end RouteContract.Coercion
