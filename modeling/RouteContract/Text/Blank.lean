/-! # Blank space and words

Blank characters are the twenty-five of the White_Space property. Trimming, words and pieces of a
text are functions on its characters. -/

set_option autoImplicit false

namespace RouteContract.Text

def blankRanges : List (Nat × Nat) :=
  [(0x9, 0xD), (0x20, 0x20), (0x85, 0x85), (0xA0, 0xA0), (0x1680, 0x1680), (0x2000, 0x200A),
   (0x2028, 0x2029), (0x202F, 0x202F), (0x205F, 0x205F), (0x3000, 0x3000)]

def isBlank (c : Char) : Bool := blankRanges.any fun r => r.1 ≤ c.toNat && c.toNat ≤ r.2

def trimStart (cs : List Char) : List Char := cs.dropWhile isBlank

def trimEnd (cs : List Char) : List Char := (cs.reverse.dropWhile isBlank).reverse

def trim (cs : List Char) : List Char := trimEnd (trimStart cs)

def pieces (separator : Char) : List Char → List (List Char)
  | [] => [[]]
  | c :: cs =>
    if c = separator then [] :: pieces separator cs
    else match pieces separator cs with
      | [] => [[c]]
      | p :: ps => (c :: p) :: ps

def splitFirst (p : Char → Bool) (cs : List Char) : List Char × List Char :=
  (cs.takeWhile (!p ·), (cs.dropWhile (!p ·)).drop 1)

def firstWord? (cs : List Char) : Option (List Char) :=
  match (trimStart cs).takeWhile (!isBlank ·) with
  | [] => none
  | w => some w

def stripPrefix? : List Char → List Char → Option (List Char)
  | [], cs => some cs
  | _ :: _, [] => none
  | p :: ps, c :: cs => if p = c then stripPrefix? ps cs else none

def dropPrefixes (p : List Char) : Nat → List Char → List Char
  | 0, cs => cs
  | n + 1, cs => match stripPrefix? p cs with
    | some rest => dropPrefixes p n rest
    | none => cs

def trimPrefixes (p cs : List Char) : List Char := dropPrefixes p cs.length cs

def trimSuffixes (p cs : List Char) : List Char := (trimPrefixes p.reverse cs.reverse).reverse

def sameIgnoringCase (a b : List Char) : Bool := a.map Char.toLower = b.map Char.toLower

def lower (s : String) : String := String.ofList (s.toList.map Char.toLower)

def joined (separator : String) (parts : List String) : String := separator.intercalate parts

end RouteContract.Text
