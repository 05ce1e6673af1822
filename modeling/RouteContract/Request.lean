import RouteContract.Json.Basic
import RouteContract.Number.Reader
import RouteContract.Text.Blank
import RouteContract.Text.Utf8

/-! # Requests

The untyped values of one request. Names of headers are kept in lower case; repeated query keys and
headers collect their values in order. -/

set_option autoImplicit false

namespace RouteContract

structure Request where
  captures : Entries String String
  query : Entries String (List String)
  headers : Entries String (List String)
  body : Option Json

namespace Request

def empty : Request := ⟨[], [], [], none⟩

def append (t : Entries String (List String)) (key value : String) : Entries String (List String) :=
  t.upsert key [] (· ++ [value])

def addCapture (r : Request) (name value : String) : Request :=
  { r with captures := r.captures.insert name value }

def addQuery (r : Request) (name value : String) : Request :=
  { r with query := append r.query name value }

def addHeader (r : Request) (name value : String) : Request :=
  { r with headers := append r.headers (Text.lower name) value }

def captureValues (r : Request) (name : String) : List String := (r.captures.find? name).toList

def queryValues (r : Request) (name : String) : List String := (r.query.find? name).getD []

def headerValues (r : Request) (name : String) : List String :=
  (r.headers.find? (Text.lower name)).getD []

end Request

namespace QueryString

def bytes : List Char → List UInt8
  | [] => []
  | '+' :: cs => 0x20 :: bytes cs
  | '%' :: a :: b :: cs =>
    match Number.hexDigit? a, Number.hexDigit? b with
    | some m, some n => UInt8.ofNat (m * 16 + n) :: bytes cs
    | _, _ => 0x25 :: bytes (a :: b :: cs)
  | c :: cs => String.utf8EncodeChar c ++ bytes cs

def decode (cs : List Char) : String := Text.Utf8.decodeLenient (bytes cs)

def pair (cs : List Char) : String × String :=
  let (key, value) := Text.splitFirst (· = '=') cs
  (decode key, decode value)

def pairs (query : String) : List (String × String) :=
  let parts := Text.pieces '&' (query.toList.dropWhile (· = '?'))
  (parts.filter (!·.isEmpty)).map pair

end QueryString

def Request.ofQueryString (query : String) : Request :=
  (QueryString.pairs query).foldl (fun r (name, value) => r.addQuery name value) .empty

end RouteContract
