import RouteContract.Schema.Basic

/-! # Field errors

What is wrong with a request, keyed by parameter name or by a path such as `user.tags[1]`. The first
error of a key is kept. -/

set_option autoImplicit false

namespace RouteContract

inductive Complaint where
  | invalid (kind : String)
  | invalidDate
  | invalidDatetime
  | notListed (values : List EnumValue)
  | noMember (members : List Schema)
  | missing (name : String)
  | excess (name : String)
  | unknownSchema (name : String)
  | chainTooDeep
  /-- A complaint in words of its own. -/
  | worded (text : String)

def Complaint.message : Complaint → String
  | invalid kind => "not a valid " ++ kind
  | invalidDate => "not a valid date (expected YYYY-MM-DD)"
  | invalidDatetime => "not a valid datetime (expected RFC 3339)"
  | notListed values =>
    "should be one of the following; [" ++ ",".intercalate (values.map EnumValue.text) ++ "]"
  | noMember members => "does not match any of: " ++ " | ".intercalate (members.map Schema.text)
  | missing name => "'" ++ name ++ "' is required"
  | excess name => "'" ++ name ++ "' is an excess property and therefore is not allowed"
  | unknownSchema name => "unknown schema '" ++ name ++ "'"
  | chainTooDeep => "schema reference chain is too deep"
  | worded text => text

structure FieldError where
  complaint : Complaint
  value : Option Json

abbrev FieldErrors := Entries String FieldError

namespace FieldErrors

def add (errors : FieldErrors) (key : String) (e : FieldError) : FieldErrors :=
  Entries.insertNew errors key e

def addAll (errors : FieldErrors) (reports : List (String × FieldError)) : FieldErrors :=
  reports.foldl (fun errors (key, e) => errors.add key e) errors

def text (errors : FieldErrors) : String :=
  toString errors.length ++ " invalid field(s)"
    ++ String.join (errors.map fun (key, e) => "; " ++ key ++ ": " ++ e.complaint.message)

end FieldErrors

end RouteContract
