import RouteContract.Json.Number

/-! # Reading JSON

A text is one value between blanks. Containers nest at most 127 deep, a repeated key keeps its first
place and its last value, and a string holds no control character and no lone surrogate. -/

set_option autoImplicit false

namespace RouteContract.Json

open Number (hexDigit? ofDigits)

def isSpace (c : Char) : Bool := c = ' ' || c = '\n' || c = '\t' || c = '\r'

def skipSpace (cs : List Char) : List Char := cs.dropWhile isSpace

def hex4? : List Char → Option (Nat × List Char)
  | a :: b :: c :: d :: rest => ([a, b, c, d].mapM hexDigit?).map fun ds => (ofDigits 16 ds, rest)
  | _ => none

def simpleEscape? : Char → Option Char
  | '"' => some '"'
  | '\\' => some '\\'
  | '/' => some '/'
  | 'b' => some (Char.ofNat 8)
  | 'f' => some (Char.ofNat 12)
  | 'n' => some '\n'
  | 'r' => some '\r'
  | 't' => some '\t'
  | _ => none

def unicodeEscape? (cs : List Char) : Option (Char × List Char) :=
  (hex4? cs).bind fun (n, rest) =>
    if 0xD800 ≤ n ∧ n ≤ 0xDBFF then
      match rest with
      | '\\' :: 'u' :: rest =>
        (hex4? rest).bind fun (m, rest) =>
          if 0xDC00 ≤ m ∧ m ≤ 0xDFFF then
            some (Char.ofNat (0x10000 + (n - 0xD800) * 0x400 + (m - 0xDC00)), rest)
          else none
      | _ => none
    else if 0xDC00 ≤ n ∧ n ≤ 0xDFFF then none
    else some (Char.ofNat n, rest)

def readString? : Nat → List Char → Option (List Char × List Char)
  | 0, _ => none
  | _ + 1, [] => none
  | _ + 1, '"' :: rest => some ([], rest)
  | n + 1, '\\' :: 'u' :: rest =>
    (unicodeEscape? rest).bind fun (c, rest) =>
      (readString? n rest).map fun (cs, rest) => (c :: cs, rest)
  | n + 1, '\\' :: e :: rest =>
    (simpleEscape? e).bind fun c =>
      (readString? n rest).map fun (cs, rest) => (c :: cs, rest)
  | n + 1, c :: rest =>
    if c.toNat < 32 ∨ c = '\\' then none
    else (readString? n rest).map fun (cs, rest) => (c :: cs, rest)

def keyword? (word : String) (v : Json) (cs : List Char) : Option (Json × List Char) :=
  let w := word.toList
  if w.isPrefixOf cs then some (v, cs.drop w.length) else none

section

variable (value : List Char → Option (Json × List Char))

def readItems? : Nat → List Char → Option (List Json × List Char)
  | 0, _ => none
  | n + 1, cs =>
    (value cs).bind fun (v, rest) =>
      match skipSpace rest with
      | ',' :: rest => (readItems? n (skipSpace rest)).map fun (vs, rest) => (v :: vs, rest)
      | ']' :: rest => some ([v], rest)
      | _ => none

def readFields? : Nat → List Char → Option (List (String × Json) × List Char)
  | 0, _ => none
  | n + 1, cs =>
    match cs with
    | '"' :: rest =>
      (readString? (rest.length + 1) rest).bind fun (k, rest) =>
        match skipSpace rest with
        | ':' :: rest =>
          (value (skipSpace rest)).bind fun (v, rest) =>
            match skipSpace rest with
            | ',' :: rest =>
              (readFields? n (skipSpace rest)).map fun (fs, rest) => ((String.ofList k, v) :: fs, rest)
            | '}' :: rest => some ([(String.ofList k, v)], rest)
            | _ => none
        | _ => none
    | _ => none

end

def readValue? : Nat → List Char → Option (Json × List Char)
  | depth, cs =>
    match cs with
    | 'n' :: _ => keyword? "null" .null cs
    | 't' :: _ => keyword? "true" (.bool true) cs
    | 'f' :: _ => keyword? "false" (.bool false) cs
    | '"' :: rest =>
      (readString? (rest.length + 1) rest).map fun (s, rest) => (.string (String.ofList s), rest)
    | '[' :: rest =>
      match depth with
      | 0 => none
      | depth + 1 =>
        match skipSpace rest with
        | ']' :: rest => some (.array [], rest)
        | rest => (readItems? (readValue? depth) (rest.length + 1) rest).map fun (vs, rest) =>
          (.array vs, rest)
    | '{' :: rest =>
      match depth with
      | 0 => none
      | depth + 1 =>
        match skipSpace rest with
        | '}' :: rest => some (.object [], rest)
        | rest => (readFields? (readValue? depth) (rest.length + 1) rest).map fun (fs, rest) =>
          (.object (Entries.ofList fs), rest)
    | cs => readNumber? cs

def maxDepth : Nat := 127

def parse? (text : String) : Option Json :=
  (readValue? maxDepth (skipSpace text.toList)).bind fun (v, rest) =>
    if (skipSpace rest).isEmpty then some v else none

end RouteContract.Json
