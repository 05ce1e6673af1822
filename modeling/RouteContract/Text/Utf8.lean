/-! # UTF-8

A byte sequence is read character by character. An ill-formed start is skipped up to the first byte
that cannot continue it; the strict reader refuses it and the lenient one writes U+FFFD for it. -/

set_option autoImplicit false

namespace RouteContract.Text.Utf8

def encode (s : String) : List UInt8 := s.toList.flatMap String.utf8EncodeChar

def isContinuation (b : UInt8) : Bool := 0x80 ≤ b && b ≤ 0xBF

def continuation (lead : UInt8) : Nat × UInt8 × UInt8 :=
  if 0xC2 ≤ lead && lead ≤ 0xDF then (1, 0x80, 0xBF)
  else if lead = 0xE0 then (2, 0xA0, 0xBF)
  else if lead = 0xED then (2, 0x80, 0x9F)
  else if 0xE1 ≤ lead && lead ≤ 0xEF then (2, 0x80, 0xBF)
  else if lead = 0xF0 then (3, 0x90, 0xBF)
  else if 0xF1 ≤ lead && lead ≤ 0xF3 then (3, 0x80, 0xBF)
  else if lead = 0xF4 then (3, 0x80, 0x8F)
  else (0, 0, 0)

def following (lead : UInt8) (rest : List UInt8) : List UInt8 :=
  let (n, lo, hi) := continuation lead
  match rest with
  | [] => []
  | b :: bs => if n ≠ 0 && lo ≤ b && b ≤ hi then b :: (bs.take (n - 1)).takeWhile isContinuation else []

def combine (lead : UInt8) (bytes : List UInt8) : Char :=
  let top := match bytes.length with
    | 1 => lead.toNat % 32
    | 2 => lead.toNat % 16
    | _ => lead.toNat % 8
  Char.ofNat (bytes.foldl (fun n b => n * 64 + b.toNat % 64) top)

def step (lead : UInt8) (rest : List UInt8) : Option Char × Nat :=
  if lead < 0x80 then (some (Char.ofNat lead.toNat), 0)
  else
    let bytes := following lead rest
    let n := (continuation lead).1
    if n ≠ 0 && bytes.length = n then (some (combine lead bytes), n) else (none, bytes.length)

def scan : List UInt8 → List (Option Char)
  | [] => []
  | lead :: rest =>
    let r := step lead rest
    r.1 :: scan (rest.drop r.2)
termination_by bytes => bytes.length
decreasing_by simp only [List.length_drop, List.length_cons]; omega

def decode? (bytes : List UInt8) : Option String := ((scan bytes).mapM id).map String.ofList

def decodeLenient (bytes : List UInt8) : String :=
  String.ofList ((scan bytes).map (·.getD (Char.ofNat 0xFFFD)))

end RouteContract.Text.Utf8
