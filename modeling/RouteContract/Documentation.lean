import RouteContract.Json.Reader
import RouteContract.Text.Blank
import RouteContract.TypeExpr.Basic

/-! # Documentation comments

A documentation comment is a free text followed by tags. Stars at the beginning of a line are layout.
A line that begins with an at sign opens a tag, and the other lines belong to the last tag or, before
any tag, to the description. -/

set_option autoImplicit false

namespace RouteContract

structure DocTag where
  name : String
  text : String
deriving DecidableEq, Repr

structure Documentation where
  description : Option String
  tags : List DocTag
deriving DecidableEq, Repr

namespace Documentation

def empty : Documentation := ⟨none, []⟩

def bare (line : List Char) : List Char := Text.trim ((Text.trim line).dropWhile (· = '*'))

def openTag (cs : List Char) : DocTag :=
  let (name, text) := Text.splitFirst Text.isBlank cs
  ⟨String.ofList name, String.ofList (Text.trim text)⟩

def DocTag.extend (t : DocTag) (line : List Char) : DocTag :=
  if line.isEmpty then t
  else { t with text := t.text ++ (if t.text.isEmpty then "" else " ") ++ String.ofList line }

def extendLast (line : List Char) : List DocTag → List DocTag
  | [] => []
  | [t] => [DocTag.extend t line]
  | t :: ts => t :: extendLast line ts

abbrev Lines := List (List Char) × List DocTag

def addLine (ls : Lines) (line : List Char) : Lines :=
  match line with
  | '@' :: rest => (ls.1, ls.2 ++ [openTag rest])
  | line => if ls.2.isEmpty then (ls.1 ++ [line], []) else (ls.1, extendLast line ls.2)

def ofLines (lines : List (List Char)) : Documentation :=
  let (texts, tags) := (lines.map bare).foldl addLine ([], [])
  let description := Text.trim (['\n'].intercalate texts)
  ⟨if description.isEmpty then none else some (String.ofList description), tags⟩

def body (comment : List Char) : List Char :=
  Text.trimSuffixes "*/".toList (Text.trimPrefixes "/**".toList (Text.trim comment))

def ofComment (comment : String) : Documentation :=
  ofLines (Text.pieces '\n' (body comment.toList))

def ofComment? : Option String → Option Documentation
  | some comment => if comment.startsWith "/**" then some (ofComment comment) else none
  | none => none

def tag? (d : Documentation) (name : String) : Option DocTag := d.tags.find? (·.name = name)

def hasTag (d : Documentation) (name : String) : Bool := (d.tag? name).isSome

def format? (d : Documentation) : Option Format := d.tags.findSome? fun t => Format.ofTag? t.name

/-- The value of the default tag; a text that is no JSON stands for itself. -/
def default? (d : Documentation) : Option Initializer :=
  (d.tag? "default").bind fun t =>
    let text := String.ofList (Text.trim t.text.toList)
    if text.isEmpty then none else some ⟨text, some ((Json.parse? text).getD (.string text))⟩

def DocTag.describes? (t : DocTag) (parameter : String) : Option String :=
  let (name, text) := Text.splitFirst Text.isBlank t.text.toList
  let text := Text.trim (Text.trimPrefixes "- ".toList (Text.trim text))
  if t.name = "param" && String.ofList name = parameter && !text.isEmpty then
    some (String.ofList text)
  else none

def parameterDescription? (d : Documentation) (parameter : String) : Option String :=
  d.tags.findSome? fun t => DocTag.describes? t parameter

def parameterFormat? (d : Documentation) (parameter : String) : Option Format :=
  d.tags.findSome? fun t => (Format.ofTag? t.name).bind fun f =>
    if (Text.firstWord? t.text.toList).map String.ofList = some parameter then some f else none

end Documentation

end RouteContract
