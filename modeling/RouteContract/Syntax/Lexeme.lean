import RouteContract.Number.Reader
import RouteContract.Syntax.Tree

/-! # Words, strings and numbers -/

set_option autoImplicit false

namespace RouteContract.Syntax

/-! ## Words -/

def wordBreaks : List Char := ":;`\"'@#.,|^&<=>+-*/\\%?!~()[]\x7b\x7d".toList

def isWordChar (c : Char) : Bool := 0x20 ≤ c.toNat && !isGap c && !wordBreaks.contains c

def wordEscape? : List Char → Option Nat
  | '\\' :: 'u' :: '{' :: rest =>
    let n := (rest.takeWhile fun c => (Number.hexDigit? c).isSome).length
    if n ≠ 0 ∧ rest[n]? = some '}' then some (n + 4) else none
  | '\\' :: 'u' :: rest =>
    if (rest.takeWhile fun c => (Number.hexDigit? c).isSome).length < 4 then none else some 6
  | _ => none

def wordLength : Nat → List Char → Nat
  | 0, _ => 0
  | n + 1, cs =>
    match wordEscape? cs with
    | some k => wordLength n (cs.drop k) + k
    | none =>
      match cs with
      | [] => 0
      | c :: rest => if isWordChar c then wordLength n rest + 1 else 0

def wordHere : Parser String := fun c =>
  let n := wordLength c.left c.rest
  if n = 0 || c.rest.head?.any Char.isDigit then none
  else
    let stop := c.skip n
    some (c.textTo stop, stop)

def word : Parser String := fun c => wordHere (gap c).2

def keyword (k : String) : Parser Unit := do require ((← word) = k)

def oneOf (ks : List String) : Parser String := do
  let w ← word
  require (ks.contains w)
  return w

def wordAhead : Parser (Option String) := fun c => some ((word c).map (·.1), c)

def privateName : Parser String := do
  sign "#"
  return "#" ++ (← wordHere)

/-! ## Strings -/

def escapeLength? : List Char → Option Nat
  | 'x' :: a :: b :: _ =>
    if (Number.hexDigit? a).isSome && (Number.hexDigit? b).isSome then some 3 else none
  | 'u' :: rest => (wordEscape? ('\\' :: 'u' :: rest)).map (· - 1)
  | 'x' :: _ => none
  | '\r' :: '\n' :: _ => some 2
  | c :: rest =>
    if '0' ≤ c ∧ c ≤ '7' then
      some (((rest.take 2).takeWhile fun c => '0' ≤ c && c ≤ '7').length + 1)
    else some 1
  | [] => none

abbrev Stops := Char → List Char → Bool

def piecesWithin (stops : Stops) : Nat → Parser (List StringPiece)
  | 0 => failure
  | n + 1 => fun c =>
    match c.rest with
    | [] => none
    | '\\' :: rest => do
      let k ← escapeLength? rest
      let after := c.skip (k + 1)
      let (pieces, stop) ← piecesWithin stops n after
      return (.escape (c.textTo after) :: pieces, stop)
    | x :: rest =>
      if stops x rest then some ([], c)
      else do
        let after := c.skip (plainLength (x :: rest))
        let (pieces, stop) ← piecesWithin stops n after
        return (.plain (c.textTo after) :: pieces, stop)
where
  plainLength : List Char → Nat
    | [] => 0
    | x :: rest => if x = '\\' || stops x rest then 0 else plainLength rest + 1

def pieces (stops : Stops) : Parser (List StringPiece) := fun c => piecesWithin stops (c.left + 1) c

def quotedBy (quote : Char) : Parser (List StringPiece) := do
  sign quote.toString
  let ps ← pieces fun x _ => x = quote || x = '\n' || x = '\r'
  exactly quote.toString
  return ps

def stringLiteral : Parser (List StringPiece) := quotedBy '"' <|> quotedBy '\''

def template (substitution : Parser Unit) : Parser (List StringPiece × Bool) := do
  sign "`"
  let first ← chunk
  let more ← many (do
    exactly "$\x7b"
    substitution
    sign "\x7d"
    chunk)
  exactly "`"
  return (first ++ more.flatten, !more.isEmpty)
where
  chunk : Parser (List StringPiece) := pieces fun x rest => x = '`' || (x = '$' && rest.head? = some '{')

/-! ## Numbers -/

def digits (isDigit : Char → Bool) : List Char → Nat
  | [] => 0
  | [c] => if isDigit c then 1 else 0
  | c :: d :: rest =>
    if !isDigit c then 0
    else if d = '_' then
      let n := digits isDigit rest
      if n = 0 then 1 else n + 2
    else digits isDigit (d :: rest) + 1

def exponentLength (cs : List Char) : Nat :=
  match cs with
  | mark :: rest =>
    if mark = 'e' ∨ mark = 'E' then
      let signed := match rest with
        | s :: _ => if s = '+' ∨ s = '-' then 1 else 0
        | [] => 0
      let n := digits Char.isDigit (rest.drop signed)
      if n = 0 then 0 else n + signed + 1
    else 0
  | [] => 0

/-- Whether a point or an exponent may follow digits: they are one zero, or have no second zero in
front. -/
def takesPoint (ds : List Char) : Bool :=
  match ds with
  | '0' :: d :: _ => '1' ≤ d && d ≤ '9'
  | _ => true

def decimalLength (cs : List Char) : Nat :=
  let whole := digits Char.isDigit cs
  let rest := cs.drop whole
  if !takesPoint (cs.take whole) then whole
  else
    let n := match rest with
      | '.' :: rest =>
        let fraction := digits Char.isDigit rest
        if whole = 0 ∧ fraction = 0 then 0 else whole + fraction + 1
      | _ => whole
    if n = 0 then 0 else n + exponentLength (cs.drop n)

def withBigMark (n : Nat) (cs : List Char) : Nat := if cs[n]? = some 'n' then n + 1 else n

def basedLength (isDigit : Char → Bool) (rest : List Char) : Nat :=
  let n := digits isDigit rest
  if n = 0 then 1 else withBigMark n rest + 2

def numberLength (cs : List Char) : Nat :=
  match cs with
  | '0' :: mark :: rest =>
    if mark = 'x' ∨ mark = 'X' then basedLength (fun c => (Number.hexDigit? c).isSome) rest
    else if mark = 'o' ∨ mark = 'O' then basedLength (fun c => '0' ≤ c && c ≤ '7') rest
    else if mark = 'b' ∨ mark = 'B' then basedLength (fun c => c = '0' || c = '1') rest
    else decimal cs
  | cs => decimal cs
where
  decimal (cs : List Char) : Nat :=
    let whole := digits Char.isDigit cs
    max (decimalLength cs) (if whole = 0 then 0 else withBigMark whole cs)

def number : Parser String := fun c =>
  let begin := (gap c).2
  let n := numberLength begin.rest
  if n = 0 then none
  else
    let stop := begin.skip n
    some (begin.textTo stop, stop)

end RouteContract.Syntax
