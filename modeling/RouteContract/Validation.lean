import RouteContract.Coercion.Text
import RouteContract.Contract
import RouteContract.Request

/-! # Validation of requests

All parameters of an operation are coerced, whatever becomes of the others. The fields of the body
are checked together, as one object. -/

set_option autoImplicit false

namespace RouteContract

structure Outcome where
  args : Entries String Typed
  errors : FieldErrors

def Outcome.isValid (o : Outcome) : Bool := o.errors.isEmpty

namespace Validation

inductive Raw where
  | texts (values : List String) (delimiter : Option Char)
  | json (v : Json)

def rawTexts? (values : List String) (delimiter : Option Char) : Option Raw :=
  if values.isEmpty then none else some (.texts values delimiter)

/-- The raw value of a parameter. A null body is no body. -/
def raw? (p : BoundParameter) (r : Request) (settings : ValidationSettings) : Option Raw :=
  match p.source with
  | .path => rawTexts? (r.captureValues p.wire) none
  | .query => rawTexts? (r.queryValues p.wire) settings.queryDelimiter
  | .header => rawTexts? (r.headerValues p.wire) (some settings.headerDelimiter)
  | .body => (r.body.filter (!·.isNull)).map .json
  | .field => none
  | .request => none
  | .injected => none

def bodyKey : String := "body"

def checkedBody (parameters : List BoundParameter) : ObjectSchema Schema where
  properties := parameters.foldl (fun ps p =>
    if p.source ≠ .field then ps
    else match p.schema with
      | none => ps
      | some schema => Entries.insert ps p.wire ⟨schema, p.required, p.default, none⟩) []
  additional := .implicit

section

variable (ds : Definitions) (settings : ValidationSettings) (r : Request)

def parameter (p : BoundParameter) (schema : Schema) : Option (Coerced Typed) :=
  match raw? p r settings with
  | some (.texts values delimiter) =>
    Coercion.text ds settings.extras delimiter schema values p.name
  | some (.json v) => Coercion.json ds settings.extras schema v p.name
  | none =>
    match p.default with
    | some v => Coercion.json ds settings.extras schema v p.name
    | none => some ⟨none, if p.required then [(p.name, ⟨.missing p.name, none⟩)] else []⟩

def bodyFields (parameters : List BoundParameter) :
    Option (Entries String Typed × List Report) :=
  match r.body with
  | none => Coercion.fields ds settings.extras (checkedBody parameters) [] ""
  | some .null => Coercion.fields ds settings.extras (checkedBody parameters) [] ""
  | some (.object given) => Coercion.fields ds settings.extras (checkedBody parameters) given ""
  | some other => some ([], [(bodyKey, ⟨.invalid "object", some other⟩)])

/-- What is known after some parameters. The body fields are coerced at the first that needs them,
and each is given to one parameter. -/
structure Progress where
  args : Entries String Typed
  reports : List Report
  fields? : Option (Entries String Typed)

def Progress.start : Progress := ⟨[], [], none⟩

def addArg (args : Entries String Typed) (name : String) : Option Typed → Entries String Typed
  | some t => args.insert name t
  | none => args

def addField (parameters : List BoundParameter) (p : BoundParameter) (st : Progress) :
    Option Progress := do
  let (fields, reports) ← match st.fields? with
    | some fields => some (fields, [])
    | none => bodyFields ds settings r parameters
  return ⟨addArg st.args p.name (fields.find? p.wire), st.reports ++ reports,
    some (fields.erase p.wire)⟩

def addParameter (parameters : List BoundParameter) (st : Progress) (p : BoundParameter) :
    Option Progress :=
  match p.schema with
  | none => some st
  | some schema =>
    if !p.source.isValidated then some st
    else if p.source = .field then addField ds settings r parameters p st
    else do
      let c ← parameter ds settings r p schema
      return { st with
        args := addArg st.args p.name c.value?
        reports := st.reports ++ c.reports }

end

def run (parameters : List BoundParameter) (r : Request) (ds : Definitions)
    (settings : ValidationSettings) : Option Outcome := do
  let st ← parameters.foldlM (addParameter ds settings r parameters) .start
  return ⟨st.args, FieldErrors.addAll [] st.reports⟩

end Validation

def Contract.validate (c : Contract) (o : Operation) (r : Request)
    (settings : ValidationSettings) : Option Outcome :=
  Validation.run o.parameters r c.definitions settings

end RouteContract
