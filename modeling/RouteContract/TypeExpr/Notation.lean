import RouteContract.TypeExpr.Basic
import RouteContract.Number.Layout

/-! # Types as text

The notation for messages, and the names under which instances of generic declarations are
registered. A name encodes the arguments: `Paged<User[]>` is `Paged_Array_User__`. -/

set_option autoImplicit false

namespace RouteContract

def Literal.text : Literal → String
  | string s => "\"" ++ s ++ "\""
  | number x => x.positionalText
  | boolean b => if b then "true" else "false"

namespace TypeExpr

mutual

def text : TypeExpr → String
  | keyword k => k.text
  | literal l => l.text
  | array t => text t ++ "[]"
  | union ts => " | ".intercalate (texts ts)
  | intersection ts => " & ".intercalate (texts ts)
  | object ⟨ps, _⟩ => "\x7b " ++ "; ".intercalate (propertyTexts ps) ++ " \x7d"
  | ref ⟨name, _, []⟩ => name
  | ref ⟨name, _, args⟩ => name ++ "<" ++ ", ".intercalate (texts args) ++ ">"
  | param name => name
  | unsupported c => "<" ++ c ++ ">"

def texts : List TypeExpr → List String
  | [] => []
  | t :: ts => text t :: texts ts

def propertyTexts : List (Property TypeExpr) → List String
  | [] => []
  | ⟨name, t, optional, _, _, _⟩ :: ps =>
    (name ++ (if optional then "?" else "") ++ ": " ++ text t) :: propertyTexts ps

end

def sanitize (s : String) : String :=
  s.map fun c => if c.isAlphanum || c = '-' || c = '.' then c else '_'

mutual

def encode : TypeExpr → String
  | keyword k => k.text
  | literal (.string s) => sanitize s
  | literal l => sanitize l.text
  | array t => "Array_" ++ encode t ++ "_"
  | union ts => "-or-".intercalate (encodeAll ts)
  | intersection ts => "-and-".intercalate (encodeAll ts)
  | object ⟨ps, _⟩ => "_" ++ ".".intercalate (encodeProperties ps) ++ "_"
  | ref ⟨name, _, []⟩ => name
  | ref ⟨name, _, args⟩ => name ++ "_" ++ ".".intercalate (encodeAll args) ++ "_"
  | param name => name
  | unsupported _ => "unknown"

def encodeAll : List TypeExpr → List String
  | [] => []
  | t :: ts => encode t :: encodeAll ts

def encodeProperties : List (Property TypeExpr) → List String
  | [] => []
  | ⟨name, t, _, _, _, _⟩ :: ps => (sanitize name ++ "-" ++ encode t) :: encodeProperties ps

end

def canonicalName (name : String) (args : List TypeExpr) : String := encode (.ref ⟨name, none, args⟩)

end TypeExpr

def Instance.text (i : Instance) : String :=
  if i.args.isEmpty then i.id.text
  else i.id.text ++ "<" ++ ", ".intercalate (TypeExpr.texts i.args) ++ ">"

end RouteContract
