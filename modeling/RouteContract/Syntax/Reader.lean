import RouteContract.Syntax.Statements

/-! # Reading a source text

The rules are tied together with a bound on the nesting of phrases. A phrase has fewer nested
phrases in it than the bound, since each takes a character or is one of a few that begin with
another. -/

set_option autoImplicit false

namespace RouteContract.Syntax

mutual

def typeWithin : Nat → Cursor → Option (TypeSyntax × Cursor)
  | 0, _ => none
  | n + 1, c => Rules.conditionalType
      ⟨typeWithin n, expressionWithin n, operandWithin n, patternWithin n, statementWithin n⟩ c

def expressionWithin : Nat → Cursor → Option (Expr × Cursor)
  | 0, _ => none
  | n + 1, c => Rules.anyExpression
      ⟨typeWithin n, expressionWithin n, operandWithin n, patternWithin n, statementWithin n⟩ c

def operandWithin : Nat → Cursor → Option (Expr × Cursor)
  | 0, _ => none
  | n + 1, c => Rules.operandWithSuffixes
      ⟨typeWithin n, expressionWithin n, operandWithin n, patternWithin n, statementWithin n⟩ c

def patternWithin : Nat → Cursor → Option (Unit × Cursor)
  | 0, _ => none
  | n + 1, c => Rules.anyPattern
      ⟨typeWithin n, expressionWithin n, operandWithin n, patternWithin n, statementWithin n⟩ c

def statementWithin : Nat → Cursor → Option (Unit × Cursor)
  | 0, _ => none
  | n + 1, c => Rules.anyStatement
      ⟨typeWithin n, expressionWithin n, operandWithin n, patternWithin n, statementWithin n⟩ c

end

def rulesWithin (n : Nat) : Rules :=
  ⟨typeWithin n, expressionWithin n, operandWithin n, patternWithin n, statementWithin n⟩

def firstLine : Parser Unit := fun c =>
  match c.rest with
  | '#' :: '!' :: rest => some ((), c.skip ((rest.takeWhile (!endsLine ·)).length + 2))
  | _ => none

def statements (text : String) : Except Position (List Statement) :=
  let c := Cursor.ofText text.toList
  let c := match firstLine c with
    | some ((), after) => after
    | none => c
  let r := rulesWithin (4 * c.left + 16)
  match many r.topStatement c with
  | some (ss, stop) => if (gap stop).2.rest.isEmpty then .ok ss else .error (gap stop).2.position
  | none => .error c.position

end RouteContract.Syntax
