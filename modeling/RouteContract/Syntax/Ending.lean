import RouteContract.Syntax.Cursor

/-! # Semicolons that are left out

A statement or member may end without a semicolon: at the end of the text, before a closing brace,
and at a line break that is not followed by a sign that would continue it. -/

set_option autoImplicit false

namespace RouteContract.Syntax

/-- What has just been read, which decides what would continue it on a later line. -/
inductive Ending where
  /-- An expression goes on with a parenthesis or a bracket. -/
  | expression
  | type
  /-- A signature goes on with a body. -/
  | signature
deriving DecidableEq, Repr

def continuing : List Char := "`,.;*%><=?^|&/:".toList

def beginsWithIn (cs : List Char) : Bool :=
  match cs with
  | 'i' :: 'n' :: rest =>
    match rest with
    | [] => true
    | c :: _ =>
      if !c.isAlpha then true
      else
        let tail := "stanceof".toList
        tail.isPrefixOf rest && !(rest.drop tail.length).head?.any Char.isAlpha
  | _ => false

def Ending.breaksBefore (e : Ending) (cs : List Char) : Bool :=
  match cs with
  | [] => true
  | c :: rest =>
    if continuing.contains c then false
    else if c = '{' then e ≠ .signature
    else if c = '(' ∨ c = '[' then e ≠ .expression
    else if c = '+' ∨ c = '-' then rest.head? = some c
    else if c = '!' then rest.head? ≠ some '='
    else !beginsWithIn cs

def onSameLine (c : Char) : Bool := isGap c && c ≠ '\n'

def Ending.mayBreak (e : Ending) (c : Cursor) : Bool :=
  match c.rest.dropWhile onSameLine with
  | [] => true
  | '}' :: _ => true
  | '\n' :: _ => e.breaksBefore (gap c).2.rest
  | _ => false

def Ending.breakWithin (e : Ending) : Nat → Cursor → Option Cursor
  | 0, _ => none
  | n + 1, c =>
    if e.mayBreak c then some c
    else
      let here := c.skip (c.rest.takeWhile onSameLine).length
      (commentLength? here.rest).bind fun k => e.breakWithin n (here.skip k)

def lineBreak (e : Ending) : Parser Unit := fun c =>
  (e.breakWithin (c.left + 1) c).map fun stop => ((), stop)

def semicolon (e : Ending) : Parser Unit := sign ";" <|> lineBreak e

def memberEnd (e : Ending) : Parser Unit :=
  sign ";" <|> sign "," <|> (do require (← would (lineBreak e)))

end RouteContract.Syntax
