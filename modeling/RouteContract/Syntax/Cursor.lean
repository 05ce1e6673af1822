/-! # Reading source text

A cursor is a place in a text. A parser takes a cursor and answers a value and a later cursor, or
nothing. The blanks and comments before a token belong to no token; reading stops right after the
last character of a token. -/

set_option autoImplicit false

namespace RouteContract.Syntax

structure Position where
  line : Nat
  column : Nat
deriving DecidableEq, Repr

structure Cursor where
  rest : List Char
  /-- The number of characters in `rest`. -/
  left : Nat
  position : Position

namespace Cursor

def ofText (text : List Char) : Cursor := ⟨text, text.length, ⟨0, 0⟩⟩

def next (p : Position) (c : Char) : Position :=
  if c = '\n' then ⟨p.line + 1, 0⟩ else { p with column := p.column + c.utf8Size }

def skip : Nat → Cursor → Cursor
  | 0, c => c
  | n + 1, c =>
    match c.rest with
    | [] => c
    | x :: rest => skip n ⟨rest, c.left - 1, next c.position x⟩

def textTo (start stop : Cursor) : String :=
  String.ofList (start.rest.take (start.left - stop.left))

end Cursor

abbrev Parser (α : Type) := StateT Cursor Option α

/-! ## Blanks and comments -/

def isGap (c : Char) : Bool :=
  c = ' ' || (0x9 ≤ c.toNat && c.toNat ≤ 0xD) || c.toNat = 0xA0 || c.toNat = 0x1680
    || (0x2000 ≤ c.toNat && c.toNat ≤ 0x200B) || c.toNat = 0x2028 || c.toNat = 0x2029
    || c.toNat = 0x202F || c.toNat = 0x205F || c.toNat = 0x2060 || c.toNat = 0x3000
    || c.toNat = 0xFEFF

def endsLine (c : Char) : Bool :=
  c = '\n' || c = '\r' || c.toNat = 0x2028 || c.toNat = 0x2029

def blockLength? : List Char → Option Nat
  | [] => none
  | '*' :: '/' :: _ => some 2
  | _ :: rest => (blockLength? rest).map (· + 1)

def commentLength? : List Char → Option Nat
  | '/' :: '/' :: rest => some ((rest.takeWhile (!endsLine ·)).length + 2)
  | '/' :: '*' :: rest => (blockLength? rest).map (· + 2)
  | _ => none

def gapWithin : Nat → Cursor → List String × Cursor
  | 0, c => ([], c)
  | n + 1, c =>
    match c.rest with
    | [] => ([], c)
    | x :: _ =>
      if isGap x then gapWithin n (c.skip 1)
      else
        match commentLength? c.rest with
        | some k =>
          let after := c.skip k
          let (comments, stop) := gapWithin n after
          (c.textTo after :: comments, stop)
        | none => ([], c)

def gap (c : Cursor) : List String × Cursor := gapWithin c.left c

def comments : Parser (List String) := fun c => some (gap c)

/-! ## Tokens -/

def peek : Parser (Option Char) := fun c => some (((gap c).2).rest.head?, c)

def ahead : Parser (List Char) := fun c => some ((gap c).2.rest, c)

def start : Parser Position := fun c => some ((gap c).2.position, c)

def commentAhead : Parser Bool := fun c => some (!(gap c).1.isEmpty, c)

def breakAhead : Parser Bool := fun c => some (c.position.line < (gap c).2.position.line, c)

def exactly (s : String) : Parser Unit := fun c =>
  if s.toList.isPrefixOf c.rest then some ((), c.skip s.length) else none

def sign (s : String) : Parser Unit := fun c => exactly s (gap c).2

def signBefore (s : String) (others : List Char) : Parser Unit := fun c =>
  match sign s c with
  | some ((), after) =>
    if after.rest.head?.any others.contains then none else some ((), after)
  | none => none

def require (b : Bool) : Parser Unit := if b then pure () else failure

def possibly {α : Type} (p : Parser α) : Parser (Option α) := (some <$> p) <|> pure none

def taken (p : Parser Unit) : Parser Bool := (do p; return true) <|> pure false

def would {α : Type} (p : Parser α) : Parser Bool := fun c => some ((p c).isSome, c)

/-- As many as there are; a step that does not move ends the list. -/
def many {α : Type} (p : Parser α) (c : Cursor) : Option (List α × Cursor) :=
  match p c with
  | none => some ([], c)
  | some (a, after) =>
    if after.left < c.left then
      (many p after).map fun (as, stop) => (a :: as, stop)
    else some ([a], after)
termination_by c.left

def iterate {σ : Type} (step : σ → Parser σ) (s : σ) (c : Cursor) : Option (σ × Cursor) :=
  match step s c with
  | none => some (s, c)
  | some (next, after) =>
    if after.left < c.left then iterate step next after else some (next, after)
termination_by c.left

def separated {α : Type} (separator : Parser Unit) (p : Parser α) : Parser (List α) := do
  let a ← p
  let as ← many (do separator; p)
  return a :: as

def withText {α : Type} (p : Parser α) : Parser (α × String) := fun c =>
  let begin := (gap c).2
  (p begin).map fun (a, stop) => ((a, begin.textTo stop), stop)

end RouteContract.Syntax
