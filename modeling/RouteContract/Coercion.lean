import RouteContract.FieldErrors
import RouteContract.Json.Reader
import RouteContract.Registry
import RouteContract.Settings
import RouteContract.Text.Utf8
import RouteContract.Typed

/-! # Coercion

A raw value is coerced against a schema. Texts are read, JSON values must have the shape already.
The result is a typed value, or none with reports of what is wrong; other fields are still looked
at. A default that needs itself never ends, so coercion runs on a budget of nested steps, and `none`
in place of a result says that it is used up. -/

set_option autoImplicit false

namespace RouteContract

open Number (Binary64)

abbrev Report := String × FieldError

structure Coerced (α : Type) where
  value? : Option α
  reports : List Report

namespace Coerced

def ok {α : Type} (a : α) : Coerced α := ⟨some a, []⟩

def refuse {α : Type} (path : String) (complaint : Complaint) (raw : Json) : Coerced α :=
  ⟨none, [(path, ⟨complaint, some raw⟩)]⟩

def orRefuse {α : Type} (a : Option α) (path : String) (complaint : Complaint) (raw : Json) :
    Coerced α :=
  match a with
  | some a => ok a
  | none => refuse path complaint raw

def isClean {α : Type} (c : Coerced α) : Bool := c.value?.isSome && c.reports.isEmpty

def map {α β : Type} (f : α → β) (c : Coerced α) : Coerced β := ⟨c.value?.map f, c.reports⟩

def sequence {α : Type} : List (Coerced α) → Coerced (List α)
  | [] => ok []
  | c :: cs =>
    let rest := sequence cs
    ⟨c.value?.bind fun a => rest.value?.map (a :: ·), c.reports ++ rest.reports⟩

end Coerced

open Coerced (ok refuse orRefuse)

namespace Coercion

def child (path name : String) : String := if path.isEmpty then name else path ++ "." ++ name

def index (path : String) (i : Nat) : String := path ++ "[" ++ toString i ++ "]"

def maxHops : Nat := 32

def deref (ds : Definitions) : Nat → Schema → Except Complaint Schema
  | 0, _ => .error .chainTooDeep
  | n + 1, .reference name =>
    match ds.find? name with
    | some d => deref ds n d.schema
    | none => .error (.unknownSchema name)
  | _ + 1, s => .ok s

def integer64? (n : Int) : Option Int :=
  if -(Nat.pow 2 63 : Int) ≤ n ∧ n < (Nat.pow 2 63 : Int) then some n else none

def integral? (x : Binary64) : Option Int := x.toInt?.bind integer64?

def listedNumber (x : Binary64) : Typed :=
  match integral? x with
  | some n => .integer n
  | none => .number x

def date (path text : String) : Coerced Typed :=
  orRefuse ((Calendar.Date.parse? (Text.trim text.toList)).map .date) path .invalidDate (.string text)

def datetime (path text : String) : Coerced Typed :=
  orRefuse ((Calendar.Timestamp.parse? (Text.trim text.toList)).map .datetime) path .invalidDatetime
    (.string text)

def integerOfText? (cs : List Char) : Option Int :=
  ((Number.integer? cs).bind integer64?).or ((Number.decimal? cs).bind integral?)

def booleanOfText? (cs : List Char) : Option Bool :=
  if Text.sameIgnoringCase cs "true".toList then some true
  else if Text.sameIgnoringCase cs "false".toList then some false
  else none

def textPrimitive (kind : Primitive) (text path : String) : Coerced Typed :=
  let raw := Json.string text
  let cs := Text.trim text.toList
  match kind with
  | .string => ok (.string text)
  | .any => ok (.string text)
  | .number => orRefuse ((Number.decimal? cs).map .number) path (.invalid "number") raw
  | .integer => orRefuse ((integerOfText? cs).map .integer) path (.invalid "integer") raw
  | .boolean => orRefuse ((booleanOfText? cs).map .boolean) path (.invalid "boolean") raw
  | .date => date path text
  | .datetime => datetime path text
  | .buffer => ok (.bytes (Text.Utf8.encode text))
  | .null => if text = "null" then ok .null else refuse path (.invalid "null") raw
  | .void => ok .null
  | .object =>
    match Json.parse? text with
    | some (.object fields) => ok (.any (.object fields))
    | _ => refuse path (.invalid "object") raw

def integerOfJson? : Json → Option Int
  | .integer n => integer64? n
  | .float x => integral? x
  | _ => none

def byte? : Json → Option UInt8
  | .integer n => if 0 ≤ n ∧ n < 256 then some (UInt8.ofNat n.toNat) else none
  | _ => none

def jsonPrimitive (kind : Primitive) (v : Json) (path : String) : Coerced Typed :=
  let refusal : Coerced Typed := refuse path (.invalid kind.text) v
  match kind, v with
  | .string, .string s => ok (.string s)
  | .number, v => orRefuse (v.toFloat?.map .number) path (.invalid "number") v
  | .integer, v => orRefuse ((integerOfJson? v).map .integer) path (.invalid "integer") v
  | .boolean, .bool b => ok (.boolean b)
  | .date, .string s => date path s
  | .datetime, .string s => datetime path s
  | .buffer, .string s => ok (.bytes (Text.Utf8.encode s))
  | .buffer, .array items => orRefuse ((items.mapM byte?).map .bytes) path (.invalid "buffer") v
  | .any, v => ok (.any v)
  | .object, .object fields => ok (.any (.object fields))
  | .null, .null => ok .null
  | .void, _ => ok .null
  | _, _ => refusal

def listedText? (values : List EnumValue) (text : String) : Option Typed :=
  let number := Number.decimal? (Text.trim text.toList)
  values.findSome? fun v => match v with
    | .string s => if s = text then some (.string s) else none
    | .number x => if number.any (·.same x) then some (listedNumber x) else none

def listedJson? (values : List EnumValue) (raw : Json) : Option Typed :=
  values.findSome? fun v => match v, raw with
    | .string s, .string r => if s = r then some (.string s) else none
    | .number x, raw => if raw.toFloat?.any (·.same x) then some (listedNumber x) else none
    | _, _ => none

def firstMatch (attempt : Schema → Option (Coerced Typed)) (all : List Schema) (path : String)
    (raw : Json) : List Schema → Option (Coerced Typed)
  | [] => some (refuse path (.noMember all) raw)
  | s :: rest => do
    let c ← attempt s
    if c.isClean then return ⟨c.value?, []⟩ else firstMatch attempt all path raw rest

section

-- `json` coerces a nested value.
variable (json : Schema → Json → String → Option (Coerced Typed))

def items (element : Schema) (path : String) (i : Nat) :
    List Json → Option (List (Coerced Typed))
  | [] => some []
  | v :: vs => do
    let c ← json element v (index path i)
    let cs ← items element path (i + 1) vs
    return c :: cs

def property (name : String) (p : PropertySchema Schema) (given : Option Json) (path : String) :
    Option (Coerced (Option (String × Typed))) :=
  match given.or p.default with
  | some v => do
    let c ← json p.schema v (child path name)
    return c.map fun t => some (name, t)
  | none =>
    some (if p.required then ⟨none, [(child path name, ⟨.missing name, none⟩)]⟩ else ok none)

def extra (extras : Extras) (a : Additional Schema) (key : String) (raw : Json) (path : String) :
    Option (Coerced (Option (String × Typed))) :=
  match a with
  | .any => some (ok (some (key, .any raw)))
  | .schema s => do
    let c ← json s raw (child path key)
    return c.map fun t => some (key, t)
  | .implicit =>
    some (match extras with
      | .reject => refuse (child path key) (.excess key) raw
      | .drop => ok none
      | .keep => ok (some (key, .any raw)))

def parts (extras : Extras) (o : ObjectSchema Schema) (fields : List (String × Json))
    (path : String) : Option (List (Coerced (Option (String × Typed)))) := do
  let declared ← o.properties.mapM fun (name, p) =>
    property json name p (Entries.find? fields name) path
  let undeclared ← (fields.filter fun (key, _) => !Entries.contains o.properties key).mapM
    fun (key, raw) => extra json extras o.additional key raw path
  return declared ++ undeclared

def present (ps : List (Coerced (Option (String × Typed)))) : List (String × Typed) :=
  ps.filterMap fun c => c.value?.join

def object (extras : Extras) (o : ObjectSchema Schema) (fields : List (String × Json))
    (path : String) : Option (Coerced Typed) := do
  let ps ← parts json extras o fields path
  return (Coerced.sequence ps).map fun es => .object (es.filterMap id)

def objects (ds : Definitions) : List Schema → Except Complaint (Option (List (ObjectSchema Schema)))
  | [] => .ok (some [])
  | s :: rest => do
    let s ← deref ds maxHops s
    let rest ← objects ds rest
    match s with
    | .object o => return rest.map (o :: ·)
    | _ => return none

/-- Objects are coerced as one merged object; otherwise every member must accept the value, and the
last one gives the result. -/
def intersection (ds : Definitions) (members : List Schema) (v : Json) (path : String) :
    Option (Coerced Typed) :=
  match objects ds members with
  | .error complaint => some ⟨none, [(path, ⟨complaint, none⟩)]⟩
  | .ok (some os) => json (.object (os.foldl ObjectSchema.merge .empty)) v path
  | .ok none => do
    let cs ← members.mapM fun s => json s v path
    let c := Coerced.sequence cs
    return ⟨c.value?.bind (·.getLast?), c.reports⟩

def jsonStep (ds : Definitions) (extras : Extras) (s : Schema) (v : Json) (path : String) :
    Option (Coerced Typed) :=
  match s with
  | .primitive kind => some (jsonPrimitive kind v path)
  | .enum values => some (orRefuse (listedJson? values v) path (.notListed values) v)
  | .array element =>
    match v with
    | .array vs => do return (Coerced.sequence (← items json element path 0 vs)).map .array
    | _ => some (refuse path (.invalid "array") v)
  | .object o =>
    match v with
    | .object fields => object json extras o fields path
    | _ => some (refuse path (.invalid "object") v)
  | .union members => firstMatch (json · v path) members path v members
  | .intersection members => intersection json ds members v path
  | .reference name => some (refuse path (.unknownSchema name) v)

end

def through {α : Type} (ds : Definitions) (s : Schema) (path : String)
    (step : Schema → Option (Coerced α)) : Option (Coerced α) :=
  match deref ds maxHops s with
  | .ok s => step s
  | .error complaint => some ⟨none, [(path, ⟨complaint, none⟩)]⟩

def jsonWithin (ds : Definitions) (extras : Extras) :
    Nat → Schema → Json → String → Option (Coerced Typed)
  | 0, _, _, _ => none
  | n + 1, s, v, path =>
    through ds s path fun s => jsonStep (jsonWithin ds extras n) ds extras s v path

end Coercion

end RouteContract
