import RouteContract.Text.Blank

/-! # Route templates

A template is a path with placeholders in braces. Joining normalises the slashes; the shape of a
template forgets the names of its placeholders. -/

set_option autoImplicit false

namespace RouteContract.Route

def segments (path : String) : List String :=
  ((Text.pieces '/' path.toList).filter (!·.isEmpty)).map String.ofList

def ofSegments (parts : List String) : String := "/" ++ "/".intercalate parts

def join (stem tail : String) : String := ofSegments (segments stem ++ segments tail)

/-- The texts between braces. `group` is the text since an opening brace, reversed; a group that is
not closed counts for nothing. -/
def groups (group : Option (List Char)) : List Char → List (List Char)
  | [] => []
  | c :: cs =>
    match group with
    | none => groups (if c = '{' then some [] else none) cs
    | some name => if c = '}' then name.reverse :: groups none cs else groups (some (c :: name)) cs

def addPlaceholder (names : List String) (group : List Char) : List String :=
  let name := String.ofList (Text.trim group)
  if name.isEmpty || names.contains name then names else names ++ [name]

def placeholders (template : String) : List String :=
  (groups none template.toList).foldl addPlaceholder []

def shapeFrom (inside : Bool) : List Char → List Char
  | [] => []
  | c :: cs =>
    if c = '{' then '{' :: '}' :: shapeFrom true cs
    else if c = '}' then shapeFrom false cs
    else if inside then shapeFrom inside cs
    else c :: shapeFrom inside cs

def shape (template : String) : String := String.ofList (shapeFrom false template.toList)

end RouteContract.Route
