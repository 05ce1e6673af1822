import RouteContract.TypeExpr.Basic

/-! # Type parameters and optionality

Substitution replaces the parameters that the given function knows and leaves the others. A union
with `undefined` beside another member stands for an optional value of the other members. -/

set_option autoImplicit false

namespace RouteContract.TypeExpr

mutual

def substitute (f : String → Option TypeExpr) : TypeExpr → TypeExpr
  | param name => (f name).getD (param name)
  | array t => array (substitute f t)
  | union ts => union (substituteAll f ts)
  | intersection ts => intersection (substituteAll f ts)
  | object ⟨ps, is⟩ => object ⟨substituteProperties f ps, substituteIndex f is⟩
  | ref ⟨name, module, args⟩ => ref ⟨name, module, substituteAll f args⟩
  | keyword k => keyword k
  | literal l => literal l
  | unsupported c => unsupported c

def substituteAll (f : String → Option TypeExpr) : List TypeExpr → List TypeExpr
  | [] => []
  | t :: ts => substitute f t :: substituteAll f ts

def substituteProperties (f : String → Option TypeExpr) :
    List (Property TypeExpr) → List (Property TypeExpr)
  | [] => []
  | ⟨name, type, optional, default, description, format⟩ :: ps =>
    ⟨name, substitute f type, optional, default, description, format⟩ :: substituteProperties f ps

def substituteIndex (f : String → Option TypeExpr) :
    List (IndexSignature TypeExpr) → List (IndexSignature TypeExpr)
  | [] => []
  | ⟨keyName, key, value⟩ :: is =>
    ⟨keyName, substitute f key, substitute f value⟩ :: substituteIndex f is

end

mutual

def firstParam? : TypeExpr → Option String
  | param name => some name
  | array t => firstParam? t
  | union ts => firstParamAll? ts
  | intersection ts => firstParamAll? ts
  | object ⟨ps, is⟩ => (firstParamProperties? ps).or (firstParamIndex? is)
  | ref ⟨_, _, args⟩ => firstParamAll? args
  | keyword _ => none
  | literal _ => none
  | unsupported _ => none

def firstParamAll? : List TypeExpr → Option String
  | [] => none
  | t :: ts => (firstParam? t).or (firstParamAll? ts)

def firstParamProperties? : List (Property TypeExpr) → Option String
  | [] => none
  | ⟨_, t, _, _, _, _⟩ :: ps => (firstParam? t).or (firstParamProperties? ps)

def firstParamIndex? : List (IndexSignature TypeExpr) → Option String
  | [] => none
  | ⟨_, _, v⟩ :: is => (firstParam? v).or (firstParamIndex? is)

end

def isUndefined : TypeExpr → Bool
  | keyword .undefined => true
  | keyword .void => true
  | _ => false

def stripUndefined : TypeExpr → TypeExpr × Bool
  | union members =>
    match members.filter (!·.isUndefined) with
    | [] => (union members, false)
    | kept@(t :: rest) =>
      if kept.length = members.length then (union members, false)
      else if rest.isEmpty then (t, true)
      else (union kept, true)
  | t => (t, false)

end RouteContract.TypeExpr
